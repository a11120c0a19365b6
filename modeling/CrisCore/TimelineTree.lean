import CrisCore.CallTrees
import Mathlib.Data.List.Pairwise
import Mathlib.Data.Rat.Floor

/-! What `print` logs of one session: its duration, and the call tree that two loops over a stack draw
from the events in the order of their begins. Sums of overheads are taken without overflow. How the
events of a session come together is in `TimelinePrint`. -/
namespace CrisCore.Timeline.Chain
open CallTrees

structure Event where
  beg : UInt64
  endTick : UInt64
  overhead : ℤ
  func : String
  deriving DecidableEq

/-- `static_cast<long long>`. -/
def toSigned (tick : UInt64) : ℤ := tick.toBitVec.toInt

/-- A line of `draw`, with its times in ticks; `durErr` is what the closing line shows of the duration
and of the overhead. -/
structure Line where
  durErr : Option (ℤ × ℤ)
  clk : UInt64
  indent : ℕ
  pop : Bool
  func : String
  deriving DecidableEq

/-- The stack, its top first: events with the overhead that was added up for them. -/
abbrev Dfs := List (Event × ℤ)

def draw (off : UInt64) (pop : Bool) (top : Event × ℤ) (below : Dfs) : Line where
  durErr := if pop then some (toSigned (top.1.endTick - top.1.beg) - top.2, top.2) else none
  clk := (if pop then top.1.endTick else top.1.beg) - off
  indent := below.length
  pop := pop
  func := top.1.func

/-- The loop that takes events from the stack and adds the overhead of each to the next one, until
`stop` holds of the top. -/
def popLoop (off : UInt64) (stop : Event → Bool) (overhead : ℤ) : Dfs → List Line × Dfs
  | [] => ([], [])
  | top :: below =>
    let overhead := top.2 + overhead
    if stop top.1 then ([], (top.1, overhead) :: below)
    else
      let (lines, dfs) := popLoop off stop overhead below
      (draw off true (top.1, overhead) below :: lines, dfs)

/-- An event at the boundary of an earlier one, or that overlaps it in part, is a child of it. -/
def encloses (evt top : Event) : Bool := min (evt.beg + 1) evt.endTick ≤ top.endTick

/-- The loop over the events, and at the end the one that empties the stack. -/
def drawEvents (off : UInt64) : List Event → Dfs → List Line
  | [], dfs => (popLoop off (fun _ => false) 0 dfs).1
  | evt :: rest, dfs =>
    let (lines, dfs) := popLoop off (encloses evt) 0 dfs
    lines ++ draw off false (evt, evt.overhead) dfs ::
      drawEvents off rest ((evt, evt.overhead) :: dfs)

/-- What is logged of a session: the header shows `dur` less `overhead`, and `overhead`; `width` is
that of the columns. -/
structure SessionPrint where
  dur : UInt64
  overhead : ℤ
  width : ℕ
  lines : List Line

/-- The events of a session that has some, in the order of their begins, with the first and the last
of them. -/
def printSession (usPerTsc : ℚ) (chain : List Event) (front back : Event) : SessionPrint :=
  let off := front.beg
  let dur := back.endTick - off
  { dur := dur
    overhead := (chain.map Event.overhead).sum
    width := ((toString ⌈(dur.toNat : ℚ) * usPerTsc⌉).length + 7) / 4 * 4
    lines := drawEvents off chain [] }

/-- A session without events is left out. -/
def printChain (usPerTsc : ℚ) (chain : List Event) : Option SessionPrint := do
  let front ← chain.head?
  let back ← chain.getLast?
  some (printSession usPerTsc chain front back)

/-- What `sort` may make of the events: it is not stable. -/
def SortsTo (events chain : List Event) : Prop :=
  chain.Perm events ∧ chain.Pairwise fun lhs rhs => lhs.beg ≤ rhs.beg

section Tree
variable (off : UInt64)

/-- The line of a mark of the call tree. -/
def lineOf : Mark Event ℤ → Line
  | .opening depth evt => ⟨none, evt.beg - off, depth, false, evt.func⟩
  | .closing depth evt overhead =>
    ⟨some (toSigned (evt.endTick - evt.beg) - overhead, overhead), evt.endTick - off, depth, true,
      evt.func⟩

/-- The lines for what has begun and ended so far. -/
def linesOf (f : OpenForest Event) : List Line := (f.marks Event.overhead).map (lineOf off)

/-- The stack with the calls that have not ended. -/
def dfsOf (f : OpenForest Event) : Dfs := f.calls.map fun t => (t.call, t.total Event.overhead)

/-- An overhead that the loop still has to add to the top. -/
def addToTop (overhead : ℤ) : Dfs → Dfs
  | [] => []
  | top :: below => (top.1, top.2 + overhead) :: below

theorem addToTop_zero (dfs : Dfs) : addToTop 0 dfs = dfs := by
  cases dfs with
  | nil => rfl
  | cons top below => rw [addToTop, add_zero]

theorem dfsOf_leave {f : OpenForest Event} {t : CallTree Event} {around : List (CallTree Event)}
    (h : f.calls = t :: around) :
    dfsOf f.leave = addToTop (t.total Event.overhead)
      (around.map fun t => (t.call, t.total Event.overhead)) := by
  rw [dfsOf, OpenForest.calls_leave h]
  cases around with
  | nil => rfl
  | cons t' around =>
    rw [OpenForest.addToInnermost, List.map_cons, CallTree.total_addCallee]
    rfl

theorem dfsOf_eq_cons {f : OpenForest Event} {top : Event × ℤ} {below : Dfs}
    (h : dfsOf f = top :: below) : ∃ t around, f.calls = t :: around ∧
      (t.call, t.total Event.overhead) = top ∧
      (around.map fun t => (t.call, t.total Event.overhead)) = below := by
  obtain ⟨t, around, hcalls, htop, hbelow⟩ := List.map_eq_cons_iff.mp h
  exact ⟨t, around, hcalls, htop, hbelow⟩

/-- The loop ends calls, and adds the total of each to the call around it, once. -/
theorem popLoop_spec (stop : Event → Bool) {f : OpenForest Event} {dfs : Dfs} {overhead : ℤ}
    (h : dfsOf f = addToTop overhead dfs) :
    ∃ f' : OpenForest Event, (popLoop off stop overhead dfs).2 = dfsOf f' ∧
      f'.preorder = f.preorder ∧
      linesOf off f ++ (popLoop off stop overhead dfs).1 = linesOf off f' := by
  induction dfs generalizing f overhead with
  | nil => exact ⟨f, h.symm, rfl, List.append_nil _⟩
  | cons top below ih =>
    by_cases hstop : stop top.1 = true
    -- the overhead is added here, and is not carried any further
    · refine ⟨f, ?_, rfl, ?_⟩
      · rw [popLoop, if_pos hstop, h, addToTop]
      · rw [popLoop, if_pos hstop, List.append_nil]
    · -- the top is closed with its total, which is then due to the next one
      obtain ⟨t, around, hcalls, htop, hbelow⟩ := dfsOf_eq_cons h
      obtain ⟨hcall, htotal⟩ := Prod.mk.inj htop
      have hleave := dfsOf_leave hcalls
      rw [hbelow, htotal] at hleave
      obtain ⟨f', hdfs, hpreorder, hlines⟩ := ih hleave
      have hmarks := OpenForest.marks_leave Event.overhead hcalls
      have hline : lineOf off (.closing around.length t.call (t.total Event.overhead)) =
          draw off true (top.1, top.2 + overhead) below := by
        rw [hcall, htotal, ← hbelow]
        simp only [lineOf, draw, List.length_map, if_true]
      refine ⟨f', ?_, hpreorder.trans f.preorder_leave, ?_⟩
      · rw [popLoop, if_neg hstop]
        exact hdfs
      · rw [popLoop, if_neg hstop, ← hlines, linesOf, linesOf, hmarks, List.map_append,
          List.append_assoc, List.map_singleton, hline, List.singleton_append]

theorem popLoop_empties (overhead : ℤ) (dfs : Dfs) :
    (popLoop off (fun _ => false) overhead dfs).2 = [] := by
  induction dfs generalizing overhead with
  | nil => rfl
  | cons top below ih =>
    rw [popLoop, if_neg Bool.false_ne_true]
    exact ih _

theorem dfsOf_enter (f : OpenForest Event) (evt : Event) :
    dfsOf (f.enter evt) = (evt, evt.overhead) :: dfsOf f :=
  congrArg (fun overhead => (evt, overhead) :: dfsOf f) (CallTree.total_node_nil _ evt)

theorem linesOf_enter (f : OpenForest Event) (evt : Event) :
    linesOf off (f.enter evt) =
      linesOf off f ++ [draw off false (evt, evt.overhead) (dfsOf f)] := by
  rw [linesOf, OpenForest.marks_enter, List.map_append, List.map_singleton]
  simp only [linesOf, lineOf, draw, dfsOf, List.length_map, Bool.false_eq_true, if_false]

theorem drawEvents_cons (evt : Event) (rest : List Event) (dfs : Dfs) :
    drawEvents off (evt :: rest) dfs =
      (popLoop off (encloses evt) 0 dfs).1 ++
        draw off false (evt, evt.overhead) (popLoop off (encloses evt) 0 dfs).2 ::
          drawEvents off rest ((evt, evt.overhead) :: (popLoop off (encloses evt) 0 dfs).2) := rfl

/-- The events that are still to come are drawn into the forest, in their order. -/
theorem drawEvents_spec (events : List Event) (f : OpenForest Event) :
    ∃ forest, CallTree.preorders forest = f.preorder ++ events ∧
      linesOf off f ++ drawEvents off events (dfsOf f) =
        (CallTree.draws Event.overhead 0 forest).map (lineOf off) := by
  induction events generalizing f with
  | nil =>
    -- the last loop ends all calls, so that only roots are left
    obtain ⟨f', hdfs, hpreorder, hlines⟩ :=
      popLoop_spec off (fun _ => false) (addToTop_zero (dfsOf f)).symm
    rw [popLoop_empties] at hdfs
    have hcalls : f'.calls = [] := List.map_eq_nil_iff.mp hdfs.symm
    refine ⟨f'.roots, ?_, ?_⟩
    · rw [← hpreorder, OpenForest.preorder, hcalls, OpenForest.openCalls, List.append_nil,
        List.append_nil]
    · rw [drawEvents, hlines, linesOf, OpenForest.marks, hcalls, OpenForest.openMarks,
        List.append_nil]
  | cons evt rest ih =>
    -- what does not enclose the event ends, then the event begins
    obtain ⟨f', hdfs, hpreorder, hlines⟩ :=
      popLoop_spec off (encloses evt) (addToTop_zero (dfsOf f)).symm
    obtain ⟨forest, hforest, hdrawn⟩ := ih (f'.enter evt)
    refine ⟨forest, ?_, ?_⟩
    · rw [hforest, OpenForest.preorder_enter, hpreorder, List.append_assoc, List.singleton_append]
    · rw [← hdrawn, linesOf_enter, ← hlines, dfsOf_enter, drawEvents_cons, hdfs, List.append_assoc,
        List.append_assoc, List.singleton_append]

end Tree

theorem printChain_eq_some (usPerTsc : ℚ) {chain : List Event} (h : chain ≠ []) :
    printChain usPerTsc chain =
      some (printSession usPerTsc chain (chain.head h) (chain.getLast h)) := by
  rw [printChain, List.head?_eq_some_head h, List.getLast?_eq_some_getLast h]
  rfl

/-- For all events, in any order: the lines are those of a forest of the events, in which every event
is closed with the overhead of all events in its tree. -/
theorem printed_call_tree (usPerTsc : ℚ) (front : Event) (rest : List Event) :
    ∃ printed, printChain usPerTsc (front :: rest) = some printed ∧
      ∃ forest : List (CallTree Event),
        CallTree.preorders forest = front :: rest ∧
        printed.lines =
          (CallTree.draws Event.overhead 0 forest).map (lineOf front.beg) ∧
        (CallTree.draws Event.overhead 0 forest).filterMap Mark.opened? = front :: rest ∧
        ((CallTree.draws Event.overhead 0 forest).filterMap Mark.closed?).Perm (front :: rest) ∧
        Mark.Bracketed [] (CallTree.draws Event.overhead 0 forest) := by
  obtain ⟨forest, hforest, hdrawn⟩ := drawEvents_spec front.beg (front :: rest) .empty
  have haccounts := CallTree.accounts_draws Event.overhead forest 0
  have hbracketed := haccounts.bracketed [] [] rfl rfl
  rw [List.append_nil] at hbracketed
  replace hforest : CallTree.preorders forest = front :: rest := hforest
  rw [hforest] at haccounts
  exact ⟨_, printChain_eq_some usPerTsc (List.cons_ne_nil front rest), forest, hforest, hdrawn,
    haccounts.openings, haccounts.closings, hbracketed⟩

/-- A duration is the time from the first begin to the last end of the events, and none of them is
longer. -/
def CoversSession (events : List Event) (dur : UInt64) : Prop :=
  (∃ first ∈ events, ∃ last ∈ events,
    (∀ e ∈ events, first.beg ≤ e.beg ∧ e.endTick ≤ last.endTick) ∧
      dur.toNat = last.endTick.toNat - first.beg.toNat) ∧
  ∀ e ∈ events, e.endTick.toNat - e.beg.toNat ≤ dur.toNat

/-- The events that begin last are the last ones to end as well. -/
def LatestEndsLast (events : List Event) : Prop :=
  ∀ e ∈ events, (∀ x ∈ events, x.beg ≤ e.beg) → ∀ x ∈ events, x.endTick ≤ e.endTick

section Duration
variable {events chain : List Event}

theorem SortsTo.ne_nil (h : SortsTo events chain) (hne : events ≠ []) : chain ≠ [] := by
  intro hnil
  rw [hnil] at h
  exact hne (List.nil_perm.mp h.1)

theorem SortsTo.bounds (h : SortsTo events chain) (hne : chain ≠ []) {e : Event}
    (he : e ∈ events) : (chain.head hne).beg ≤ e.beg ∧ e.beg ≤ (chain.getLast hne).beg := by
  have hrefl : Std.Refl fun lhs rhs : Event => lhs.beg ≤ rhs.beg := ⟨fun e => UInt64.le_refl e.beg⟩
  have hmem := h.1.mem_iff.mpr he
  exact ⟨h.2.rel_head hmem, h.2.rel_getLast hmem⟩

theorem toNat_dur (h : SortsTo events chain) (hvalid : ∀ e ∈ events, e.beg ≤ e.endTick)
    (hne : chain ≠ []) : ((chain.getLast hne).endTick - (chain.head hne).beg).toNat =
      (chain.getLast hne).endTick.toNat - (chain.head hne).beg.toNat := by
  have hlast := h.1.mem_iff.mp (List.getLast_mem hne)
  apply UInt64.toNat_sub_of_le
  exact UInt64.le_trans (h.bounds hne hlast).1 (hvalid _ hlast)

/-- With the events in one order: it is the end of the last one that counts. -/
theorem coversSession_iff (h : SortsTo events chain) (hvalid : ∀ e ∈ events, e.beg ≤ e.endTick)
    (hne : chain ≠ []) :
    CoversSession events ((chain.getLast hne).endTick - (chain.head hne).beg) ↔
      ∀ e ∈ events, e.endTick ≤ (chain.getLast hne).endTick := by
  have hfirst := h.1.mem_iff.mp (List.head_mem hne)
  have hlast := h.1.mem_iff.mp (List.getLast_mem hne)
  have hbounds {e : Event} (he : e ∈ events) := h.bounds hne he
  unfold CoversSession
  rw [toNat_dur h hvalid hne]
  simp only [UInt64.le_iff_toNat_le] at hvalid hbounds ⊢
  constructor
  · rintro ⟨⟨first, hfirst', last, hlast', hall, hdur⟩, -⟩ e he
    -- both begin first, so the last one ends where the duration does
    have hbeg := (hall _ hfirst).1
    have hbeg' := (hbounds hfirst').1
    have hend := (hall e he).2
    have hfirstLast := (hbounds hlast').1
    have hvalidLast := hvalid last hlast'
    have hvalidBack := hvalid _ hlast
    have hback := (hbounds hlast).1
    omega
  · intro hends
    refine ⟨⟨_, hfirst, _, hlast, fun e he => ⟨(hbounds he).1, hends e he⟩, rfl⟩, ?_⟩
    intro e he
    have hbeg := (hbounds he).1
    have hend := hends e he
    omega

/-- Any of the events that begin last may be the last one after the sort. -/
theorem exists_sortsTo_getLast {e : Event} (he : e ∈ events)
    (hlatest : ∀ x ∈ events, x.beg ≤ e.beg) :
    ∃ chain, SortsTo events chain ∧ ∃ hne : chain ≠ [], chain.getLast hne = e := by
  let before := (events.erase e).mergeSort fun lhs rhs => lhs.beg ≤ rhs.beg
  have hperm : before.Perm (events.erase e) := List.mergeSort_perm ..
  have hsorted : before.Pairwise fun lhs rhs => lhs.beg ≤ rhs.beg := by
    have hle := @List.pairwise_mergeSort Event (fun lhs rhs => decide (lhs.beg ≤ rhs.beg))
    refine (hle (fun a b c hab hbc => ?_) (fun a b => ?_) (events.erase e)).imp of_decide_eq_true
    · rw [decide_eq_true_iff] at hab hbc ⊢
      exact UInt64.le_trans hab hbc
    · rw [Bool.or_eq_true, decide_eq_true_iff, decide_eq_true_iff]
      exact UInt64.le_total a.beg b.beg
  refine ⟨before ++ [e], ⟨?_, ?_⟩, List.append_ne_nil_of_right_ne_nil _ (List.cons_ne_nil e []),
    List.getLast_concat ..⟩
  · exact (List.perm_append_singleton ..).trans
      ((hperm.cons e).trans (List.perm_cons_erase he).symm)
  · refine List.pairwise_append.mpr ⟨hsorted, List.pairwise_singleton .., fun x hx y hy => ?_⟩
    rw [List.mem_singleton.mp hy]
    exact hlatest x (List.mem_of_mem_erase (hperm.mem_iff.mp hx))

end Duration

/-- For all valid events: every order that the sort may leave them in gives the time of the whole
session exactly where those that begin last end last. -/
theorem dur_covers_session_iff (usPerTsc : ℚ) {events : List Event} (hne : events ≠ [])
    (hvalid : ∀ e ∈ events, e.beg ≤ e.endTick) :
    (∀ chain, SortsTo events chain → ∃ printed, printChain usPerTsc chain = some printed ∧
      CoversSession events printed.dur) ↔ LatestEndsLast events := by
  constructor
  -- any of the events that begin last may be the one that counts
  · intro h e he hlatest
    obtain ⟨chain, hsorts, hchain, rfl⟩ := exists_sortsTo_getLast he hlatest
    obtain ⟨printed, hprinted, hcovers⟩ := h chain hsorts
    rw [printChain_eq_some usPerTsc hchain] at hprinted
    cases hprinted
    exact (coversSession_iff hsorts hvalid hchain).mp hcovers
  · intro h chain hsorts
    have hchain := hsorts.ne_nil hne
    have hlast := hsorts.1.mem_iff.mp (List.getLast_mem hchain)
    refine ⟨_, printChain_eq_some usPerTsc hchain, (coversSession_iff hsorts hvalid hchain).mpr ?_⟩
    exact h _ hlast fun x hx => (hsorts.bounds hchain hx).2

/-- A region around another one that ends before it. -/
def nestedEvents : List Event := [⟨0, 10, 0, "outer"⟩, ⟨1, 2, 0, "inner"⟩]

theorem dur_covers_session_iff_nestedEvents :
    (∀ chain, SortsTo nestedEvents chain → ∃ printed, printChain 1 chain = some printed ∧
      CoversSession nestedEvents printed.dur) ↔ LatestEndsLast nestedEvents :=
  dur_covers_session_iff 1 (List.cons_ne_nil _ _) (by decide)

/-- The session is said to take 2 ticks, and one of its regions 10. -/
theorem dur_misses_enclosing_region :
    ¬ ∀ (usPerTsc : ℚ) (events : List Event), events ≠ [] →
      (∀ e ∈ events, e.beg ≤ e.endTick) → ∀ chain, SortsTo events chain →
        ∃ printed, printChain usPerTsc chain = some printed ∧
          CoversSession events printed.dur := by
  intro h
  obtain ⟨printed, hprinted, -, hcovers⟩ := h 1 nestedEvents (List.cons_ne_nil _ _) (by decide)
    nestedEvents ⟨.refl _, by decide⟩
  rw [printChain_eq_some 1 (show nestedEvents ≠ [] from List.cons_ne_nil _ _)] at hprinted
  cases hprinted
  have hlong := hcovers ⟨0, 10, 0, "outer"⟩ List.mem_cons_self
  exact absurd hlong (by decide)

end CrisCore.Timeline.Chain
