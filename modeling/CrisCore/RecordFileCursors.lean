import CrisCore.ReplayOrder

/-! `RecordFileIterator` and `RecordFileReverseIterator` over a LevelDB cursor, which can go both
ways. Seen from its position on, each is the iterator over a list that the rest of the model uses:
the one over the entries, the other over the entries in reverse. -/
namespace CrisCore

/-- `Next` or `Prev`. -/
inductive Direction
  | next
  | prev
  deriving DecidableEq

/-- A `leveldb::Iterator`: the entries behind its position, the nearest first, the entry it is at,
and those after it. Before a seek and beyond either end it is not valid. -/
inductive DbIterator (α : Type*)
  | invalid
  | on (behind : List α) (entry : α) (ahead : List α)

namespace DbIterator
variable {α : Type*}

def seekToFirst : List α → DbIterator α
  | [] => invalid
  | e :: rest => on [] e rest

def seekToLast (entries : List α) : DbIterator α :=
  match entries.reverse with
  | [] => invalid
  | e :: rest => on rest e []

/-- The entry it is at, if it is valid. -/
def current : DbIterator α → Option α
  | invalid => none
  | on _ e _ => some e

def next : DbIterator α → DbIterator α
  | invalid => invalid
  | on _ _ [] => invalid
  | on behind e (e' :: ahead) => on (e :: behind) e' ahead

def prev : DbIterator α → DbIterator α
  | invalid => invalid
  | on [] _ _ => invalid
  | on (e' :: behind) e ahead => on behind e' (e :: ahead)

def move : Direction → DbIterator α → DbIterator α
  | .next => next
  | .prev => prev

/-- The entries from its position on, in the order they are come to. -/
def toCome (d : Direction) : DbIterator α → List α
  | invalid => []
  | on behind e ahead =>
    match d with
    | .next => e :: ahead
    | .prev => e :: behind

@[simp] theorem toCome_move (d : Direction) (itr : DbIterator α) :
    (itr.move d).toCome d = (itr.toCome d).tail := by
  cases itr with
  | invalid => cases d <;> rfl
  | on behind e ahead =>
    cases d with
    | next => cases ahead <;> rfl
    | prev => cases behind <;> rfl

theorem head?_toCome (d : Direction) (itr : DbIterator α) :
    (itr.toCome d).head? = itr.current := by
  cases itr <;> cases d <;> rfl

theorem toCome_seekToFirst (entries : List α) : (seekToFirst entries).toCome .next = entries := by
  cases entries <;> rfl

theorem toCome_seekToLast (entries : List α) :
    (seekToLast entries).toCome .prev = entries.reverse := by
  unfold seekToLast
  cases entries.reverse <;> rfl

theorem length_move_lt {d : Direction} {itr : DbIterator α} {e : α} (h : itr.current = some e) :
    ((itr.move d).toCome d).length < (itr.toCome d).length := by
  rw [toCome_move, List.length_tail]
  have hhead := head?_toCome d itr
  rw [h] at hhead
  cases hl : itr.toCome d with
  | nil =>
    rw [hl] at hhead
    cases hhead
  | cons e' rest => simp

end DbIterator

/-- Either of the two iterators. -/
structure RecordCursor where
  dbItr : DbIterator (Bytes × Bytes)
  legacy : Bool
  currentKey : RecordFileKey

namespace RecordCursor
open RecordFileIterator (tryReadCurrentKey)

/-- The loop of `ReadNextValidKey` and of `ReadPrevValidKey`. -/
def readValidKey (d : Direction) (legacy : Bool) (currentKey : RecordFileKey)
    (dbItr : DbIterator (Bytes × Bytes)) : RecordCursor :=
  match _h : dbItr.current with
  | none => ⟨dbItr, legacy, currentKey⟩
  | some e =>
    match tryReadCurrentKey legacy e.1 with
    | none => readValidKey d legacy currentKey (dbItr.move d)
    | some key => ⟨dbItr, legacy, key⟩
termination_by (dbItr.toCome d).length
decreasing_by exact DbIterator.length_move_lt _h

/-- `RecordFile::Iterate` on a database with these entries. -/
def iterate (entries : List (Bytes × Bytes)) (legacy : Bool) : RecordCursor :=
  readValidKey .next legacy ⟨0, 0⟩ (.seekToFirst entries)

/-- `RecordFile::ReverseIterate` -/
def reverseIterate (entries : List (Bytes × Bytes)) (legacy : Bool) : RecordCursor :=
  readValidKey .prev legacy ⟨0, 0⟩ (.seekToLast entries)

def valid (itr : RecordCursor) : Bool :=
  itr.dbItr.current.isSome

/-- The key that was read last, and the value at the cursor. -/
def get (itr : RecordCursor) : RecordFileKey × Bytes :=
  (itr.currentKey, (itr.dbItr.current.map Prod.snd).getD [])

/-- `Next` of the one iterator, `Prev` of the other. -/
def step (d : Direction) (itr : RecordCursor) : RecordCursor :=
  readValidKey d itr.legacy itr.currentKey (itr.dbItr.move d)

/-- The iterator over the entries to come. -/
def toCome (d : Direction) (itr : RecordCursor) : RecordFileIterator :=
  ⟨itr.dbItr.toCome d, itr.legacy, itr.currentKey⟩

section Refinement
variable (d : Direction) (legacy : Bool) (itr : RecordCursor)

theorem toCome_readValidKey (currentKey : RecordFileKey) (dbItr : DbIterator (Bytes × Bytes)) :
    (readValidKey d legacy currentKey dbItr).toCome d =
      RecordFileIterator.readNextValidKey legacy currentKey (dbItr.toCome d) := by
  induction hl : dbItr.toCome d generalizing dbItr with
  | nil =>
    have hnone : dbItr.current = none := by
      rw [← DbIterator.head?_toCome d, hl, List.head?_nil]
    rw [readValidKey]
    split
    · simp only [toCome, hl, RecordFileIterator.readNextValidKey]
    · rename_i e he
      rw [hnone] at he
      cases he
  | cons e rest ih =>
    have hsome : dbItr.current = some e := by
      rw [← DbIterator.head?_toCome d, hl, List.head?_cons]
    have hrest : (dbItr.move d).toCome d = rest := by
      rw [DbIterator.toCome_move, hl, List.tail_cons]
    rw [readValidKey]
    split
    · rename_i he
      rw [hsome] at he
      cases he
    · rename_i e' he
      cases hsome.symm.trans he
      unfold RecordFileIterator.readNextValidKey
      cases hkey : tryReadCurrentKey legacy e.1 with
      | none => exact ih (dbItr.move d) hrest
      | some key => simp only [toCome, hl]

theorem toCome_iterate (entries : List (Bytes × Bytes)) :
    (iterate entries legacy).toCome .next = .start entries legacy := by
  rw [iterate, toCome_readValidKey, DbIterator.toCome_seekToFirst]
  rfl

theorem toCome_reverseIterate (entries : List (Bytes × Bytes)) :
    (reverseIterate entries legacy).toCome .prev = .start entries.reverse legacy := by
  rw [reverseIterate, toCome_readValidKey, DbIterator.toCome_seekToLast]
  rfl

theorem toCome_step : (itr.step d).toCome d = (itr.toCome d).next := by
  rw [step, toCome_readValidKey, DbIterator.toCome_move]
  rfl

theorem valid_toCome : (itr.toCome d).valid = itr.valid := by
  rw [valid, ← DbIterator.head?_toCome d]
  unfold RecordFileIterator.valid toCome
  cases itr.dbItr.toCome d <;> rfl

theorem get_toCome : (itr.toCome d).get = itr.get := by
  rw [get, ← DbIterator.head?_toCome d]
  rfl

end Refinement

theorem length_step_lt (d : Direction) {itr : RecordCursor} (h : itr.valid = true) :
    ((itr.step d).dbItr.toCome d).length < (itr.dbItr.toCome d).length := by
  obtain ⟨e, he⟩ := Option.isSome_iff_exists.mp h
  have hstep : ((itr.step d).toCome d).dbItr.length ≤ (itr.dbItr.toCome d).tail.length := by
    rw [toCome_step]
    exact RecordFileIterator.length_readNextValidKey _ _ _
  have hmove := DbIterator.length_move_lt (d := d) he
  rw [DbIterator.toCome_move] at hmove
  exact lt_of_le_of_lt hstep hmove

/-- What `Get` answers in the turns of a loop that goes to the end. -/
def loop (d : Direction) (itr : RecordCursor) : List (RecordFileKey × Bytes) :=
  if _h : itr.valid = true then itr.get :: loop d (itr.step d) else []
termination_by (itr.dbItr.toCome d).length
decreasing_by exact length_step_lt d _h

/-- The cached key belongs to the entry at the cursor, whenever there is one. -/
def KeyOfCursor (legacy : Bool) (itr : RecordCursor) : Prop :=
  ∀ e, itr.dbItr.current = some e → tryReadCurrentKey legacy e.1 = some itr.currentKey

/-- The entries with a key that can be read, each with its key decoded and its value. -/
def readable (legacy : Bool) (entries : List (Bytes × Bytes)) : List (RecordFileKey × Bytes) :=
  entries.filterMap fun e => (tryReadCurrentKey legacy e.1).map fun key => (key, e.2)

theorem loop_eq_records (d : Direction) {itr : RecordCursor} (h : (itr.toCome d).Standing) :
    itr.loop d = (itr.toCome d).records := by
  induction hn : (itr.dbItr.toCome d).length using Nat.strong_induction_on generalizing itr with
  | h n ih =>
    by_cases hv : itr.valid = true
    · have hstanding : ((itr.step d).toCome d).Standing := by
        rw [toCome_step]
        exact RecordFileIterator.standing_next _
      have hrest := ih _ (hn ▸ length_step_lt d hv) hstanding rfl
      rw [loop, dif_pos hv, hrest, toCome_step,
        RecordFileIterator.records_eq_cons h ((valid_toCome d itr).trans hv), get_toCome]
    · have hend : ¬ (itr.toCome d).valid = true := by
        rw [valid_toCome]
        exact hv
      rw [loop, dif_neg hv, RecordFileIterator.records_eq_nil hend]

/-- The loop that reads a valid key leaves it in step with the cursor. -/
theorem keyOfCursor_readValidKey (d : Direction) (legacy : Bool) (currentKey : RecordFileKey)
    (dbItr : DbIterator (Bytes × Bytes)) :
    (readValidKey d legacy currentKey dbItr).KeyOfCursor legacy ∧
      (readValidKey d legacy currentKey dbItr).legacy = legacy := by
  have hread := toCome_readValidKey d legacy currentKey dbItr
  have hstanding := RecordFileIterator.standing_readNextValidKey legacy currentKey (dbItr.toCome d)
  have hlegacy := RecordFileIterator.legacy_readNextValidKey legacy currentKey (dbItr.toCome d)
  rw [← hread] at hstanding hlegacy
  have hlegacy' : (readValidKey d legacy currentKey dbItr).legacy = legacy := hlegacy
  refine ⟨fun e he => ?_, hlegacy'⟩
  rw [← DbIterator.head?_toCome d] at he
  have hkey := hstanding e he
  rwa [hlegacy] at hkey

theorem keyOfCursor_steps (d : Direction) {legacy : Bool} {itr : RecordCursor}
    (h : itr.KeyOfCursor legacy ∧ itr.legacy = legacy) (n : ℕ) :
    ((step d)^[n] itr).KeyOfCursor legacy := by
  have hboth : ((step d)^[n] itr).KeyOfCursor legacy ∧ ((step d)^[n] itr).legacy = legacy := by
    induction n with
    | zero => exact h
    | succ n ih =>
      rw [Function.iterate_succ_apply', step, ih.2]
      exact keyOfCursor_readValidKey d legacy _ _
  exact hboth.1

/-- For every content of the database, in either key mode: forward the readable entries, backward
the same in reverse, and in every state on the way the cached key is that of the cursor. -/
theorem forward_and_reverse_iteration_agree (entries : List (Bytes × Bytes)) (legacy : Bool) :
    (iterate entries legacy).loop .next = readable legacy entries ∧
      (reverseIterate entries legacy).loop .prev = (readable legacy entries).reverse ∧
      ∀ n, ((step .next)^[n] (iterate entries legacy)).KeyOfCursor legacy ∧
        ((step .prev)^[n] (reverseIterate entries legacy)).KeyOfCursor legacy := by
  have hforward : ((iterate entries legacy).toCome .next).Standing := by
    rw [toCome_iterate]
    exact RecordFileIterator.standing_readNextValidKey _ _ _
  have hbackward : ((reverseIterate entries legacy).toCome .prev).Standing := by
    rw [toCome_reverseIterate]
    exact RecordFileIterator.standing_readNextValidKey _ _ _
  refine ⟨?_, ?_, fun n => ⟨?_, ?_⟩⟩
  · rw [loop_eq_records _ hforward, toCome_iterate]
    exact RecordFileIterator.records_readNextValidKey _ _ _
  · rw [loop_eq_records _ hbackward, toCome_reverseIterate, readable, ← List.filterMap_reverse]
    exact RecordFileIterator.records_readNextValidKey _ _ _
  · exact keyOfCursor_steps _ (keyOfCursor_readValidKey _ _ _ _) n
  · exact keyOfCursor_steps _ (keyOfCursor_readValidKey _ _ _ _) n

end RecordCursor
end CrisCore
