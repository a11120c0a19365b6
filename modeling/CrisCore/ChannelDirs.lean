import CrisCore.RecordReplay

/-! The directory of a channel, from the compiler's text for the message type to the path that the
recorder makes and the replayer searches. -/
namespace CrisCore

/-- `std::string::find` -/
def findText (pattern : List Char) : List Char → Option ℕ
  | [] => if pattern.isEmpty then some 0 else none
  | c :: text =>
    if pattern.isPrefixOf (c :: text) then some 0 else (findText pattern text).map (· + 1)

/-- `none` where `substr` throws. A position not found is 2^64 - 1, and the sums wrap round: the
start is 3 then, and a count below zero takes all the rest. -/
def getTypeNameFromPrettyFunction (prettyFunction : String) : Option String :=
  let text := prettyFunction.toList
  let startPos := match findText ['T', ' ', '=', ' '] text with
    | some k => k + 4
    | none => 3
  if text.length < startPos then none
  else
    let rest := text.drop startPos
    match findText [';'] text <|> findText [']'] text with
    | some endPos =>
      some (.ofList (if startPos ≤ endPos then rest.take (endPos - startPos) else rest))
    | none => some (.ofList rest)

inductive Compiler
  | gcc
  | clang
  deriving DecidableEq

/-- The text before and after that of `T` in `__PRETTY_FUNCTION__` of `GetTypeNameImpl<T>`. -/
def Compiler.before : Compiler → List Char
  | .gcc => "std::string \x7banonymous\x7d::GetTypeNameImpl() [with ".toList
  | .clang => "std::string (anonymous namespace)::GetTypeNameImpl() [".toList

def Compiler.after : Compiler → List Char
  | .gcc => "; std::string = std::__cxx11::basic_string<char>]".toList
  | .clang => "]".toList

def Compiler.prettyFunction (compiler : Compiler) (typeText : String) : String :=
  .ofList (compiler.before ++ ['T', ' ', '=', ' '] ++ typeText.toList ++ compiler.after)

/-- The channel that `RegisterChannel<message_t>(subid)` records or replays. -/
def channelOf (compiler : Compiler) (typeText : String) (subid : UInt64) : Option Channel :=
  (getTypeNameFromPrettyFunction (compiler.prettyFunction typeText)).map fun name => ⟨name, subid⟩

section Find
variable {pattern text : List Char}

theorem findText_length {k : ℕ} (h : findText pattern text = some k) :
    k + pattern.length ≤ text.length := by
  induction text generalizing k with
  | nil =>
    unfold findText at h
    split_ifs at h with hp
    cases h
    simp_all
  | cons c text ih =>
    unfold findText at h
    split_ifs at h with hp
    · cases h
      have hle := (List.isPrefixOf_iff_prefix.mp hp).length_le
      omega
    · obtain ⟨k', hk, rfl⟩ := Option.map_eq_some_iff.mp h
      have hle := ih hk
      rw [List.length_cons]
      omega

/-- The first place stays the first when text is added behind. -/
theorem findText_append {k : ℕ} (h : findText pattern text = some k) (more : List Char) :
    findText pattern (text ++ more) = some k := by
  induction text generalizing k with
  -- only the empty pattern is found in the empty text
  | nil =>
    have hp : pattern = [] := by
      unfold findText at h
      split_ifs at h with hp
      simpa using hp
    subst hp
    cases h
    cases more <;> rfl
  | cons c text ih =>
    have hlen := findText_length h
    unfold findText at h
    rw [List.cons_append]
    unfold findText
    split_ifs at h with hp
    · have hp' : pattern.isPrefixOf (c :: (text ++ more)) = true := by
        rw [List.isPrefixOf_iff_prefix] at hp ⊢
        exact hp.trans ⟨more, rfl⟩
      rw [if_pos hp']
      exact h
    · obtain ⟨k', hk, rfl⟩ := Option.map_eq_some_iff.mp h
      have hp' : ¬ pattern.isPrefixOf (c :: (text ++ more)) = true := by
        rw [List.isPrefixOf_iff_prefix] at hp ⊢
        -- a match that needs the added text would be longer than the match found behind
        intro hpre
        exact hp (List.prefix_of_prefix_length_le hpre (List.prefix_append (c :: text) more)
          (by omega))
      rw [if_neg hp', ih hk]
      rfl

/-- One character is found where it stands for the first time. -/
theorem findText_char {c : Char} {front : List Char} (back : List Char) (h : c ∉ front) :
    findText [c] (front ++ c :: back) = some front.length := by
  induction front with
  | nil => simp [findText]
  | cons d front ih =>
    have hd : c ≠ d := fun hc => h (hc ▸ List.mem_cons_self)
    have hf : c ∉ front := fun hc => h (List.mem_cons_of_mem d hc)
    simp [findText, ih hf, hd]

theorem findText_char_none {c : Char} (h : c ∉ text) : findText [c] text = none := by
  induction text with
  | nil => rfl
  | cons d text ih =>
    have hd : c ≠ d := fun hc => h (hc ▸ List.mem_cons_self)
    have hf : c ∉ text := fun hc => h (List.mem_cons_of_mem d hc)
    simp [findText, ih hf, hd]

end Find

/-- A type's text without the characters that end the extraction: gcc's list goes on behind it with a
`;`, clang's ends there. -/
def IsPlain (compiler : Compiler) (typeText : String) : Prop :=
  ';' ∉ typeText.toList ∧ (compiler = .clang → ']' ∉ typeText.toList)

instance (compiler : Compiler) (typeText : String) : Decidable (IsPlain compiler typeText) :=
  inferInstanceAs (Decidable (_ ∧ _))

theorem findText_start (compiler : Compiler) (more : List Char) :
    findText ['T', ' ', '=', ' '] (compiler.before ++ ['T', ' ', '=', ' '] ++ more) =
      some compiler.before.length := by
  apply findText_append
  cases compiler <;> decide

/-- The first `;`, or without one the first `]`, is that behind the type. -/
theorem findText_end (compiler : Compiler) {typeText : List Char} (h1 : ';' ∉ typeText)
    (h2 : compiler = .clang → ']' ∉ typeText) :
    (findText [';'] (compiler.before ++ ['T', ' ', '=', ' '] ++ typeText ++ compiler.after) <|>
      findText [']'] (compiler.before ++ ['T', ' ', '=', ' '] ++ typeText ++ compiler.after)) =
        some (compiler.before ++ ['T', ' ', '=', ' '] ++ typeText).length := by
  have hfront (c : Char) (hb : c ∉ compiler.before ++ ['T', ' ', '=', ' '])
      (ht : c ∉ typeText) : c ∉ compiler.before ++ ['T', ' ', '=', ' '] ++ typeText := by
    rw [List.mem_append]
    exact not_or.mpr ⟨hb, ht⟩
  cases compiler with
  | gcc =>
    have hafter : Compiler.after .gcc =
        ';' :: " std::string = std::__cxx11::basic_string<char>]".toList := by decide
    rw [hafter, findText_char _ (hfront ';' (by decide) h1)]
    rfl
  | clang =>
    have hnone : findText [';'] (Compiler.before .clang ++ ['T', ' ', '=', ' '] ++ typeText ++
        Compiler.after .clang) = none := by
      apply findText_char_none
      rw [List.mem_append]
      exact not_or.mpr ⟨hfront ';' (by decide) h1, by decide⟩
    have hafter : Compiler.after .clang = [']'] := by decide
    rw [hnone, hafter, findText_char _ (hfront ']' (by decide) (h2 rfl))]
    rfl

/-- The text of the type is what `GetTypeName` returns. -/
theorem getTypeName_of_plain {compiler : Compiler} {typeText : String}
    (h : IsPlain compiler typeText) :
    getTypeNameFromPrettyFunction (compiler.prettyFunction typeText) = some typeText := by
  have hstart := findText_start compiler (typeText.toList ++ compiler.after)
  rw [← List.append_assoc] at hstart
  have hlen : (compiler.before ++ ['T', ' ', '=', ' '] ++ typeText.toList).length =
      compiler.before.length + 4 + typeText.toList.length := by
    simp
    omega
  have hrest : (compiler.before ++ ['T', ' ', '=', ' '] ++ typeText.toList ++
      compiler.after).drop (compiler.before.length + 4) = typeText.toList ++ compiler.after := by
    rw [List.append_assoc]
    exact List.drop_left' (by simp)
  simp only [getTypeNameFromPrettyFunction, Compiler.prettyFunction, String.toList_ofList, hstart,
    findText_end compiler h.1 h.2, hlen, hrest]
  rw [if_neg (by simp), if_pos (Nat.le_add_right _ _), Nat.add_sub_cancel_left, List.take_left,
    String.ofList_toList]

/-- The bytes of a name: a letter or digit counts as itself, every other byte alike. -/
def visibleBytes (name : String) : List (Option Char) :=
  name.toList.flatMap fun c => if c.isAlphanum then [some c] else List.replicate c.utf8Size none

theorem getMessageFileName_eq (name : String) :
    (getMessageFileName name).toList = (visibleBytes name).map fun b => b.getD '_' := by
  simp only [getMessageFileName, visibleBytes, String.toList_ofList, List.map_flatMap]
  congr 1
  funext c
  split_ifs <;> simp

/-- An underscore of a file name stands for a byte that is no letter or digit. -/
theorem visibleBytes_of_fileName (name : String) :
    visibleBytes name = ((visibleBytes name).map fun b => b.getD '_').map fun c =>
      if c.isAlphanum then some c else none := by
  have halnum (b : Option Char) (hb : b ∈ visibleBytes name) (c : Char) (hc : b = some c) :
      c.isAlphanum = true := by
    obtain ⟨d, -, hd⟩ := List.mem_flatMap.mp hb
    split_ifs at hd with ha
    · cases hc
      cases List.mem_singleton.mp hd
      exact ha
    · rw [List.eq_of_mem_replicate hd] at hc
      cases hc
  rw [List.map_map]
  refine (List.map_id _).symm.trans (List.map_congr_left fun b hb => ?_)
  cases b with
  | none => rfl
  | some c => exact (if_pos (halnum _ hb c rfl)).symm

/-- Two names share a file name when they agree up to what is neither letter nor digit. -/
theorem getMessageFileName_inj {name name' : String} :
    getMessageFileName name = getMessageFileName name' ↔ visibleBytes name = visibleBytes name' := by
  constructor
  · intro h
    have hmap : (visibleBytes name).map (fun b => b.getD '_') =
        (visibleBytes name').map fun b => b.getD '_' := by
      rw [← getMessageFileName_eq, ← getMessageFileName_eq, h]
    rw [visibleBytes_of_fileName name, visibleBytes_of_fileName name', hmap]
  · intro h
    apply String.toList_inj.mp
    rw [getMessageFileName_eq, getMessageFileName_eq, h]

theorem toString_subid_inj {subid subid' : UInt64} :
    toString subid.toNat = toString subid'.toNat ↔ subid = subid' := by
  refine ⟨fun h => ?_, fun h => h ▸ rfl⟩
  have hl : Nat.toDigits 10 subid.toNat = Nat.toDigits 10 subid'.toNat := by
    rw [← Nat.toList_repr, ← Nat.toList_repr]
    exact congrArg String.toList h
  apply UInt64.toNat_inj.mp
  calc subid.toNat = Nat.ofDigitChars 10 (Nat.toDigits 10 subid.toNat) 0 :=
        Nat.ofDigitChars_ten_toDigits.symm
    _ = Nat.ofDigitChars 10 (Nat.toDigits 10 subid'.toNat) 0 := by rw [hl]
    _ = subid'.toNat := Nat.ofDigitChars_ten_toDigits

theorem dir_inj {channel channel' : Channel} :
    channel.dir = channel'.dir ↔ channel.subid = channel'.subid ∧
      visibleBytes channel.messageType = visibleBytes channel'.messageType := by
  simp only [Channel.dir, List.cons.injEq, and_true, getMessageFileName_inj, toString_subid_inj]
  exact and_comm

theorem channelOf_plain {compiler : Compiler} {typeText : String}
    (h : IsPlain compiler typeText) (subid : UInt64) :
    channelOf compiler typeText subid = some ⟨typeText, subid⟩ := by
  rw [channelOf, getTypeName_of_plain h, Option.map_some]

section Distinct
variable {codec : MessageCodec} {typeText typeText' : String}

/-- The directories of two channels are the same exactly when the subids are and the type names
agree but for what is neither letter nor digit. -/
theorem channel_dirs_distinct (compiler : Compiler) (h : IsPlain compiler typeText)
    (h' : IsPlain compiler typeText') (subid subid' : UInt64) (recorder : MessageRecorder codec)
    (replayer : MessageReplayer) :
    ∃ channel channel', channelOf compiler typeText subid = some channel ∧
      channelOf compiler typeText' subid' = some channel' ∧
      (recorder.channelDir channel = recorder.channelDir channel' ↔
        subid = subid' ∧ visibleBytes typeText = visibleBytes typeText') ∧
      (replayer.recordDir ++ channel.dir = replayer.recordDir ++ channel'.dir ↔
        subid = subid' ∧ visibleBytes typeText = visibleBytes typeText') := by
  refine ⟨⟨typeText, subid⟩, ⟨typeText', subid'⟩, channelOf_plain h subid,
    channelOf_plain h' subid', ?_, ?_⟩
  · rw [MessageRecorder.channelDir, MessageRecorder.channelDir, List.append_right_inj]
    exact dir_inj
  · rw [List.append_right_inj]
    exact dir_inj

theorem channel_dirs_distinct_arrays :
    ∃ channel channel', channelOf .gcc "TestMessage<int [3]>" 1 = some channel ∧
      channelOf .gcc "TestMessage<int [4]>" 1 = some channel' ∧
      MessageRecorder.newRecorder.channelDir channel ≠
        MessageRecorder.newRecorder.channelDir channel' := by
  have hthree : IsPlain .gcc "TestMessage<int [3]>" := by decide
  have hfour : IsPlain .gcc "TestMessage<int [4]>" := by decide
  obtain ⟨channel, channel', h, h', hdir, -⟩ := channel_dirs_distinct .gcc hthree hfour 1 1
    MessageRecorder.newRecorder (.create ⟨∅, [], []⟩ ["records"])
  exact ⟨channel, channel', h, h', fun he => absurd (hdir.mp he).2 (by decide)⟩

/-- A message of a pointer and one of a reference: the file name shows the same for both. -/
theorem two_channels_share_directory :
    ∃ channel channel', channelOf .gcc "TestMessage<int*>" 1 = some channel ∧
      channelOf .gcc "TestMessage<int&>" 1 = some channel' ∧ channel ≠ channel' ∧
      MessageRecorder.newRecorder.channelDir channel =
        MessageRecorder.newRecorder.channelDir channel' :=
  ⟨⟨"TestMessage<int*>", 1⟩, ⟨"TestMessage<int&>", 1⟩, channelOf_plain (by decide) 1,
    channelOf_plain (by decide) 1, by decide, by decide⟩

end Distinct

end CrisCore
