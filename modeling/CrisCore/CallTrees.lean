import Mathlib.Algebra.BigOperators.Group.List.Basic

/-! Trees of calls, drawn with a mark where a call begins and one where it ends, and forests in which
some calls have not ended yet. -/
namespace CrisCore.CallTrees

/-- A call with the calls that it makes. -/
inductive CallTree (α : Type*)
  | node (call : α) (callees : List (CallTree α))

/-- The mark of a call with the number of calls around it; at the end with the cost of the call. -/
inductive Mark (α M : Type*)
  | opening (depth : ℕ) (call : α)
  | closing (depth : ℕ) (call : α) (cost : M)
  deriving DecidableEq

variable {α M : Type*}

namespace Mark

def opened? : Mark α M → Option α
  | opening _ call => some call
  | closing .. => none

def closed? : Mark α M → Option α
  | opening .. => none
  | closing _ call _ => some call

/-- Each mark has the number of the calls that are open, and the innermost of these is closed first.
At the end none is open. -/
def Bracketed : List α → List (Mark α M) → Prop
  | around, [] => around = []
  | around, opening depth call :: rest =>
    depth = around.length ∧ Bracketed (call :: around) rest
  | around, closing depth call _ :: rest =>
    around.head? = some call ∧ depth = around.tail.length ∧ Bracketed around.tail rest

end Mark

namespace CallTree

def call : CallTree α → α
  | node call _ => call

def callees : CallTree α → List (CallTree α)
  | node _ callees => callees

@[elab_as_elim]
theorem induction {P : CallTree α → Prop}
    (node : ∀ call callees, (∀ t ∈ callees, P t) → P (.node call callees)) : ∀ t, P t
  | .node call callees => node call callees fun t _ => induction node t

mutual

/-- The calls in the order in which they begin. -/
def preorder : CallTree α → List α
  | .node call callees => call :: preorders callees

def preorders : List (CallTree α) → List α
  | [] => []
  | t :: rest => preorder t ++ preorders rest

end

theorem preorders_append (ts us : List (CallTree α)) :
    preorders (ts ++ us) = preorders ts ++ preorders us := by
  induction ts with
  | nil => rfl
  | cons t ts ih => rw [List.cons_append, preorders, preorders, ih, List.append_assoc]

/-- One more call that has ended. -/
def addCallee (t callee : CallTree α) : CallTree α := node t.call (t.callees ++ [callee])

theorem preorder_addCallee (t callee : CallTree α) :
    (t.addCallee callee).preorder = t.preorder ++ callee.preorder := by
  cases t with
  | node call callees =>
    rw [addCallee, preorder, preorder, CallTree.call, CallTree.callees, preorders_append, preorders,
      preorders, List.append_nil, List.cons_append]

section Draw
variable [AddMonoid M] (cost : α → M)

/-- What a call costs with all calls in it. -/
def total (t : CallTree α) : M := (t.preorder.map cost).sum

theorem total_addCallee (t callee : CallTree α) :
    (t.addCallee callee).total cost = t.total cost + callee.total cost := by
  rw [total, preorder_addCallee, List.map_append, List.sum_append]
  rfl

theorem total_node_nil (call : α) : total cost (.node call []) = cost call := by
  simp [total, preorder, preorders]

mutual

/-- The marks of a call at a depth. -/
def draw (depth : ℕ) : CallTree α → List (Mark α M)
  | .node call callees =>
    .opening depth call :: draws (depth + 1) callees ++
      [.closing depth call (total cost (.node call callees))]

def draws (depth : ℕ) : List (CallTree α) → List (Mark α M)
  | [] => []
  | t :: rest => draw depth t ++ draws depth rest

end

theorem draws_append (depth : ℕ) (ts us : List (CallTree α)) :
    draws cost depth (ts ++ us) = draws cost depth ts ++ draws cost depth us := by
  induction ts with
  | nil => rfl
  | cons t ts ih => rw [List.cons_append, draws, draws, ih, List.append_assoc]

theorem draws_singleton (depth : ℕ) (t : CallTree α) : draws cost depth [t] = draw cost depth t :=
  List.append_nil _

/-- The marks of a call that has not ended. -/
def drawOpen (depth : ℕ) (t : CallTree α) : List (Mark α M) :=
  .opening depth t.call :: draws cost (depth + 1) t.callees

theorem draw_eq (depth : ℕ) (t : CallTree α) :
    draw cost depth t = drawOpen cost depth t ++ [.closing depth t.call (t.total cost)] := by
  cases t with
  | node call callees => rfl

theorem drawOpen_addCallee (depth : ℕ) (t callee : CallTree α) :
    drawOpen cost depth (t.addCallee callee) =
      drawOpen cost depth t ++ draw cost (depth + 1) callee := by
  cases t with
  | node call callees =>
    rw [drawOpen, drawOpen, addCallee, CallTree.callees, CallTree.callees, draws_append,
      draws_singleton, List.cons_append]
    rfl

end Draw

/-- The marks have each call once with its opening and once with its closing, and leave open what was
open before. -/
structure Accounts (depth : ℕ) (marks : List (Mark α M)) (calls : List α) : Prop where
  openings : marks.filterMap Mark.opened? = calls
  closings : (marks.filterMap Mark.closed?).Perm calls
  bracketed : ∀ around rest, around.length = depth → Mark.Bracketed around rest →
    Mark.Bracketed around (marks ++ rest)

theorem Accounts.nil (depth : ℕ) : Accounts depth ([] : List (Mark α M)) [] where
  openings := rfl
  closings := .nil
  bracketed _ _ _ h := h

theorem Accounts.append {depth : ℕ} {marks marks' : List (Mark α M)} {calls calls' : List α}
    (h : Accounts depth marks calls) (h' : Accounts depth marks' calls') :
    Accounts depth (marks ++ marks') (calls ++ calls') := by
  refine ⟨?_, ?_, fun around rest hlen hrest => ?_⟩
  · rw [List.filterMap_append, h.openings, h'.openings]
  · rw [List.filterMap_append]
    exact h.closings.append h'.closings
  · rw [List.append_assoc]
    exact h.bracketed around _ hlen (h'.bracketed around rest hlen hrest)

/-- A call around calls that were made one level further in. -/
theorem Accounts.call {depth : ℕ} {marks : List (Mark α M)} {calls : List α}
    (h : Accounts (depth + 1) marks calls) (call : α) (cost : M) :
    Accounts depth (.opening depth call :: marks ++ [.closing depth call cost]) (call :: calls) := by
  refine ⟨?_, ?_, fun around rest hlen hrest => ?_⟩
  · have hopenings : (Mark.opening depth call :: marks ++ [Mark.closing depth call cost]).filterMap
        Mark.opened? = call :: (marks.filterMap Mark.opened? ++ []) := by
      rw [List.cons_append, List.filterMap_cons, List.filterMap_append]
      rfl
    rw [hopenings, h.openings, List.append_nil]
  · have hclosings : (Mark.opening depth call :: marks ++ [Mark.closing depth call cost]).filterMap
        Mark.closed? = marks.filterMap Mark.closed? ++ [call] := by
      rw [List.cons_append, List.filterMap_cons, List.filterMap_append]
      rfl
    rw [hclosings]
    exact (List.perm_append_singleton ..).trans (h.closings.cons call)
  · rw [List.cons_append, List.cons_append, List.append_assoc, List.singleton_append]
    have hclosing : Mark.Bracketed (call :: around) (.closing depth call cost :: rest) :=
      ⟨rfl, hlen.symm, hrest⟩
    exact ⟨hlen.symm, h.bracketed (call :: around) _ (congrArg Nat.succ hlen) hclosing⟩

theorem accounts_draws_of_forall [AddMonoid M] {cost : α → M} {ts : List (CallTree α)}
    (h : ∀ t ∈ ts, ∀ depth, Accounts depth (draw cost depth t) t.preorder) (depth : ℕ) :
    Accounts depth (draws cost depth ts) (preorders ts) := by
  induction ts with
  | nil => exact .nil depth
  | cons t ts ih =>
    exact (h t List.mem_cons_self depth).append (ih fun t' ht' => h t' (List.mem_cons_of_mem t ht'))

theorem accounts_draw [AddMonoid M] (cost : α → M) (t : CallTree α) (depth : ℕ) :
    Accounts depth (draw cost depth t) t.preorder := by
  induction t using induction generalizing depth with
  | node call callees ih => exact (accounts_draws_of_forall ih (depth + 1)).call call _

theorem accounts_draws [AddMonoid M] (cost : α → M) (ts : List (CallTree α)) (depth : ℕ) :
    Accounts depth (draws cost depth ts) (preorders ts) :=
  accounts_draws_of_forall (fun t _ => accounts_draw cost t) depth

end CallTree

/-- The calls that have not ended are trees that still grow, the innermost one first. -/
structure OpenForest (α : Type*) where
  roots : List (CallTree α)
  calls : List (CallTree α)

namespace OpenForest
open CallTree

def empty : OpenForest α := ⟨[], []⟩

def enter (f : OpenForest α) (call : α) : OpenForest α := ⟨f.roots, .node call [] :: f.calls⟩

/-- A call that has ended is one of those that the call around it made. -/
def addToInnermost (callee : CallTree α) : List (CallTree α) → List (CallTree α)
  | [] => []
  | t :: around => t.addCallee callee :: around

/-- The innermost call ends. -/
def leave (f : OpenForest α) : OpenForest α :=
  match f.calls with
  | [] => f
  | [t] => ⟨f.roots ++ [t], []⟩
  | t :: around => ⟨f.roots, addToInnermost t around⟩

theorem calls_leave {f : OpenForest α} {t : CallTree α} {around : List (CallTree α)}
    (h : f.calls = t :: around) : f.leave.calls = addToInnermost t around := by
  obtain ⟨roots, calls⟩ := f
  cases h
  cases around with
  | nil => rfl
  | cons t' around => rfl

def openCalls : List (CallTree α) → List α
  | [] => []
  | t :: around => openCalls around ++ t.preorder

def preorder (f : OpenForest α) : List α := preorders f.roots ++ openCalls f.calls

theorem preorder_enter (f : OpenForest α) (call : α) :
    (f.enter call).preorder = f.preorder ++ [call] := by
  rw [preorder, preorder, List.append_assoc]
  rfl

theorem preorder_leave (f : OpenForest α) : f.leave.preorder = f.preorder := by
  obtain ⟨roots, calls⟩ := f
  cases calls with
  | nil => rfl
  | cons t around =>
    cases around with
    | nil => simp only [leave, preorder, openCalls, preorders_append, preorders, List.append_nil,
        List.nil_append]
    | cons t' around => simp only [leave, addToInnermost, preorder, openCalls, preorder_addCallee,
        List.append_assoc]

section Marks
variable [AddMonoid M] (cost : α → M)

def openMarks : List (CallTree α) → List (Mark α M)
  | [] => []
  | t :: around => openMarks around ++ drawOpen cost around.length t

def marks (f : OpenForest α) : List (Mark α M) := draws cost 0 f.roots ++ openMarks cost f.calls

theorem marks_enter (f : OpenForest α) (call : α) :
    (f.enter call).marks cost = f.marks cost ++ [.opening f.calls.length call] := by
  rw [marks, marks, List.append_assoc]
  rfl

theorem marks_leave {f : OpenForest α} {t : CallTree α} {around : List (CallTree α)}
    (h : f.calls = t :: around) :
    f.leave.marks cost = f.marks cost ++ [.closing around.length t.call (t.total cost)] := by
  obtain ⟨roots, calls⟩ := f
  cases h
  cases around with
  | nil =>
    -- a call with none around it becomes a root
    simp only [leave, marks, openMarks, draws_append, draws_singleton, draw_eq, List.append_nil,
      List.nil_append, List.append_assoc, List.length_nil]
  | cons t' around =>
    simp only [leave, addToInnermost, marks, openMarks, drawOpen_addCallee, draw_eq,
      List.append_assoc, List.length_cons]

end Marks

end OpenForest
end CrisCore.CallTrees
