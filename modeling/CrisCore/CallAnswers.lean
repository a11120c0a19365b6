import Mathlib.Logic.Relation

/-! Objects that take calls and answer them: the answers to a list of calls, and when they do not
tell two objects apart. The two need not be of one type, nor do their calls the same way. -/
namespace CrisCore
variable {σ τ κ β : Type*}

/-- The object after the calls of a list. -/
def afterCalls (call : σ → κ → σ × β) (s : σ) (calls : List κ) : σ :=
  calls.foldl (fun s c => (call s c).1) s

/-- What the object answers to the calls of a list, one after the other. -/
def answersTo (call : σ → κ → σ × β) : σ → List κ → List β
  | _, [] => []
  | s, c :: calls => (call s c).2 :: answersTo call (call s c).1 calls

theorem afterCalls_concat (call : σ → κ → σ × β) (s : σ) (calls : List κ) (c : κ) :
    afterCalls call s (calls ++ [c]) = (call (afterCalls call s calls) c).1 := by
  rw [afterCalls, List.foldl_append]
  rfl

@[simp] theorem length_answersTo (call : σ → κ → σ × β) (s : σ) (calls : List κ) :
    (answersTo call s calls).length = calls.length := by
  induction calls generalizing s with
  | nil => rfl
  | cons c calls ih => rw [answersTo, List.length_cons, ih, List.length_cons]

theorem answersTo_concat (call : σ → κ → σ × β) (s : σ) (calls : List κ) (c : κ) :
    answersTo call s (calls ++ [c]) =
      answersTo call s calls ++ [(call (afterCalls call s calls) c).2] := by
  induction calls generalizing s with
  | nil => rfl
  | cons d calls ih =>
    rw [List.cons_append, answersTo, ih, answersTo, List.cons_append]
    rfl

/-- Objects that stand in `R` give one answer to any call and stand in `R` again after it. -/
structure AnswersAlike (call : σ → κ → σ × β) (call' : τ → κ → τ × β) (R : σ → τ → Prop) :
    Prop where
  answer : ∀ s t c, R s t → (call s c).2 = (call' t c).2
  kept : ∀ s t c, R s t → R (call s c).1 (call' t c).1

namespace AnswersAlike
variable {call : σ → κ → σ × β} {call' : τ → κ → τ × β} {R : σ → τ → Prop} {s : σ} {t : τ}

theorem afterCalls (h : AnswersAlike call call' R) (hR : R s t) (calls : List κ) :
    R (afterCalls call s calls) (CrisCore.afterCalls call' t calls) := by
  induction calls generalizing s t with
  | nil => exact hR
  | cons c calls ih => exact ih (h.kept s t c hR)

theorem answersTo (h : AnswersAlike call call' R) (hR : R s t) (calls : List κ) :
    answersTo call s calls = CrisCore.answersTo call' t calls := by
  induction calls generalizing s t with
  | nil => rfl
  | cons c calls ih =>
    simp only [CrisCore.answersTo]
    rw [h.answer s t c hR, ih (h.kept s t c hR)]

end AnswersAlike
end CrisCore
