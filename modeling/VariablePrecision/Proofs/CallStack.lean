/-
  VariablePrecision.Proofs.CallStack

  The bounded call stack against an ordinary one.

  An ordinary stack is the list of the open calls, the innermost first.  The bounded stack
  keeps the outermost `callStackCapacity` of them and the number of all (`Keeps`), and
  opening or closing a call keeps it so: above the capacity only the number moves, below
  it both stacks do the same.  What the bounded stack answers follows from these two
  facts alone, and they leave nothing of its state open (`Keeps.unique`).
-/

import VariablePrecision.CallStack

namespace VariablePrecision.CallStack

variable {s s' : CallStack} {calls : List String} {site : String}

/-! ## One call -/

theorem eq_of_sites (hsites : s.sites = s'.sites) (hdropped : s.dropped = s'.dropped) : s = s' := by
  cases s
  cases s'
  congr

theorem sites_push (s : CallStack) (site : String) : (s.push site).sites =
    if s.sites.size < callStackCapacity then s.sites.push site else s.sites := by
  rw [push]
  split <;> rfl

theorem dropped_push (s : CallStack) (site : String) : (s.push site).dropped =
    if s.sites.size < callStackCapacity then 0 else s.dropped + 1 := by
  rw [push]
  split <;> rfl

theorem answer_pop (s : CallStack) :
    s.pop.1 = if 0 < s.dropped then none else s.sites.back? := by
  rw [pop]
  split <;> rfl

theorem sites_pop (s : CallStack) :
    s.pop.2.sites = if 0 < s.dropped then s.sites else s.sites.pop := by
  rw [pop]
  split <;> rfl

theorem dropped_pop (s : CallStack) : s.pop.2.dropped = s.dropped - 1 := by
  rw [pop]
  split
  · rfl
  · show 0 = s.dropped - 1
    omega

/-- Below the capacity no call is only counted. -/
theorem dropped_of_lt (h : s.sites.size < callStackCapacity) : s.dropped = 0 := by
  have hfull := s.full
  omega

@[simp] theorem depth_push (s : CallStack) (site : String) :
    (s.push site).depth = s.depth + 1 := by
  rw [depth, depth, sites_push, dropped_push]
  by_cases hroom : s.sites.size < callStackCapacity
  · rw [if_pos hroom, if_pos hroom, Array.size_push, dropped_of_lt hroom]
  · rw [if_neg hroom, if_neg hroom]
    rfl

/-- Closing a call undoes its opening. -/
@[simp] theorem pop_push (s : CallStack) (site : String) : (s.push site).pop.2 = s := by
  by_cases hroom : s.sites.size < callStackCapacity
  · apply eq_of_sites
    · rw [sites_pop, dropped_push, sites_push, if_pos hroom, if_pos hroom,
        if_neg (Nat.lt_irrefl 0), Array.pop_push]
    · rw [dropped_pop, dropped_push, if_pos hroom, dropped_of_lt hroom]
  · apply eq_of_sites
    · rw [sites_pop, dropped_push, sites_push, if_neg hroom, if_neg hroom,
        if_pos (Nat.succ_pos _)]
    · rw [dropped_pop, dropped_push, if_neg hroom, Nat.add_sub_cancel]

/-! ## Moves -/

/-- A call that is opened, or the innermost one that is closed. -/
inductive Move where
  | push (site : String)
  | pop

/-- The stack after one move. -/
def move (s : CallStack) : Move → CallStack
  | .push site => s.push site
  | .pop => s.pop.2

/-- The stack after moves from the start. -/
def run (moves : List Move) : CallStack := moves.foldl move .empty

/-- The open calls after one move, the innermost first. -/
def moveCalls (calls : List String) : Move → List String
  | .push site => site :: calls
  | .pop => calls.tail

/-- The open calls after moves from the start. -/
def openCalls (moves : List Move) : List String := moves.foldl moveCalls []

/-! ## What is kept -/

/-- The stack knows the outermost of the open calls, and how many there are. -/
structure Keeps (s : CallStack) (calls : List String) : Prop where
  sites : s.sites.toList = calls.reverse.take callStackCapacity
  depth : s.depth = calls.length

theorem Keeps.size (h : s.Keeps calls) :
    s.sites.size = min callStackCapacity calls.length := by
  rw [← Array.length_toList, h.sites, List.length_take, List.length_reverse]

/-- The number of calls that are counted only. -/
theorem Keeps.dropped (h : s.Keeps calls) : s.dropped = calls.length - callStackCapacity := by
  have hsize := h.size
  have hdepth := h.depth
  rw [CallStack.depth] at hdepth
  omega

/-- Nothing else is known of the open calls. -/
theorem Keeps.unique (h : s.Keeps calls) (h' : s'.Keeps calls) : s = s' :=
  eq_of_sites (Array.toList_inj.1 (h.sites.trans h'.sites.symm)) (h.dropped.trans h'.dropped.symm)

theorem keeps_empty : empty.Keeps [] where
  sites := rfl
  depth := rfl

theorem Keeps.push (h : s.Keeps calls) : (s.push site).Keeps (site :: calls) where
  sites := by
    have hsize := h.size
    rw [sites_push]
    split
    · -- all calls are kept so far, and so is this one
      rw [Array.toList_push, h.sites, List.reverse_cons,
        List.take_of_length_le (by rw [List.length_reverse]; omega),
        List.take_of_length_le (by rw [List.length_append, List.length_reverse]; simp; omega)]
    · -- the call is counted only
      rw [h.sites, List.reverse_cons,
        List.take_append_of_le_length (by rw [List.length_reverse]; omega)]
  depth := by rw [depth_push, h.depth, List.length_cons]

theorem Keeps.pop (h : s.Keeps calls) : s.pop.2.Keeps calls.tail := by
  have hsize := h.size
  have hdropped := h.dropped
  constructor
  · rw [sites_pop, ← List.dropLast_reverse]
    split
    · -- the call that is closed lies above those that are kept
      rw [h.sites, List.dropLast_eq_take, List.take_take, List.length_reverse,
        Nat.min_eq_left (by omega)]
    · -- all calls are kept, and the last one is closed
      rw [Array.toList_pop, h.sites,
        List.take_of_length_le (by rw [List.length_reverse]; omega),
        List.take_of_length_le (by rw [List.length_dropLast, List.length_reverse]; omega)]
  · rw [CallStack.depth, sites_pop, dropped_pop, List.length_tail]
    split
    · omega
    · rw [Array.size_pop]
      omega

theorem Keeps.move (h : s.Keeps calls) (m : Move) : (s.move m).Keeps (moveCalls calls m) := by
  cases m with
  | push site => exact h.push
  | pop => exact h.pop

/-- The bounded stack keeps what it can of the open calls, whatever was opened and closed. -/
theorem keeps_run (moves : List Move) : (run moves).Keeps (openCalls moves) := by
  have hfold : ∀ s calls, Keeps s calls →
      (moves.foldl CallStack.move s).Keeps (moves.foldl moveCalls calls) := by
    -- the stack that a run starts from changes with each move
    induction moves with
    | nil =>
      intro s calls h
      exact h
    | cons m rest ih =>
      intro s calls h
      exact ih _ _ (h.move m)
  exact hfold empty [] keeps_empty

/-! ## What is answered -/

theorem Keeps.top? (h : s.Keeps calls) :
    s.top? = calls.reverse[min calls.length callStackCapacity - 1]? := by
  have hsize := h.size
  rw [CallStack.top?, Array.back?_eq_getElem?, ← Array.getElem?_toList, h.sites, hsize,
    List.getElem?_take]
  split
  · rw [Nat.min_comm]
  · -- only if no call is open the last position is none at all
    have hnone : calls = [] := by
      rw [← List.length_eq_zero_iff]
      have hpos : 0 < callStackCapacity := by decide
      omega
    rw [hnone]
    rfl

/-- A call that is closed is known by its site as long as all open calls are. -/
theorem Keeps.answer (h : s.Keeps calls) :
    s.pop.1 = if calls.length ≤ callStackCapacity then calls.head? else none := by
  have hdropped := h.dropped
  rw [answer_pop]
  by_cases hall : calls.length ≤ callStackCapacity
  · rw [if_neg (by omega), if_pos hall, ← Array.getLast?_toList, h.sites,
      List.take_of_length_le (by rw [List.length_reverse]; omega), List.getLast?_reverse]
  · rw [if_pos (by omega), if_neg hall]

/-- After any moves from the start, the bounded stack has the depth of an ordinary one, shows the
    site at the top of it or else the highest one within the capacity, gives the site of a call
    that is closed if the ordinary stack is not above the capacity, and holds the lowest sites of
    the ordinary stack.  An excursion that leaves the ordinary stack as it was leaves no trace. -/
theorem run_refines (moves : List Move) :
    (run moves).depth = (openCalls moves).length ∧
      (run moves).top? =
        (openCalls moves).reverse[min (openCalls moves).length callStackCapacity - 1]? ∧
      (run moves).pop.1 =
        (if (openCalls moves).length ≤ callStackCapacity then (openCalls moves).head? else none) ∧
      (run moves).sites.toList = (openCalls moves).reverse.take callStackCapacity ∧
      ∀ excursion, openCalls (moves ++ excursion) = openCalls moves →
        run (moves ++ excursion) = run moves := by
  have hkeeps := keeps_run moves
  refine ⟨hkeeps.depth, hkeeps.top?, hkeeps.answer, hkeeps.sites, ?_⟩
  intro excursion hback
  have hthere := keeps_run (moves ++ excursion)
  rw [hback] at hthere
  exact hthere.unique hkeeps

end VariablePrecision.CallStack
