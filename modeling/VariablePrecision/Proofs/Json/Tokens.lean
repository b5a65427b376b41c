/-
  VariablePrecision.Proofs.Json.Tokens

  What the smallest readers do on spelled tokens.

  `r.Gives cs a cs'` says that the reader `r` takes the characters `cs` to the value `a`
  and leaves `cs'` unread.  It chains along binds, so each later fact about a reader is
  a chain of the facts here, one per token.
-/

import VariablePrecision.Proofs.Json.Value

namespace VariablePrecision.Json

namespace Reader

variable {α β : Type}

/-- The reader reads `a` and leaves `rest`. -/
def Gives (r : Reader α) (cs : List Char) (a : α) (rest : List Char) : Prop :=
  StateT.run r cs = .ok (a, rest)

theorem gives_pure (a : α) (cs : List Char) : (pure a : Reader α).Gives cs a cs := rfl

theorem Gives.bind {r : Reader α} {f : α → Reader β} {cs cs' cs'' : List Char} {a : α} {b : β}
    (h : r.Gives cs a cs') (hf : (f a).Gives cs' b cs'') : (r >>= f).Gives cs b cs'' := by
  unfold Gives at h hf ⊢
  rw [StateT.run_bind, h]
  exact hf

theorem Gives.map {r : Reader α} {cs rest : List Char} {a : α} (f : α → β)
    (h : r.Gives cs a rest) : (f <$> r).Gives cs (f a) rest := by
  unfold Gives at h ⊢
  rw [StateT.run_map, h]
  rfl

theorem gives_lift {step : List Char → Except Fault (α × List Char)} {cs rest : List Char} {a : α}
    (h : step cs = .ok (a, rest)) : (lift step).Gives cs a rest := h

theorem gives_get (cs : List Char) : (get : Reader (List Char)).Gives cs cs cs := rfl

theorem gives_advance (c : Char) (rest : List Char) : advance.Gives (c :: rest) () rest := rfl

/-! ## Tokens -/

theorem dropWhile_blanks {ws rest : List Char} (h : Blanks ws) :
    (ws ++ rest).dropWhile isBlank = rest.dropWhile isBlank :=
  List.dropWhile_append_of_pos h

theorem gives_token {ws rest : List Char} {c : Char} (hws : Blanks ws) (hc : isBlank c = false) :
    token?.Gives (ws ++ c :: rest) (some c) (c :: rest) := by
  have hdrop : (ws ++ c :: rest).dropWhile isBlank = c :: rest := by
    rw [dropWhile_blanks hws, List.dropWhile_cons_of_neg (by simp [hc])]
  show Except.ok (((ws ++ c :: rest).dropWhile isBlank).head?,
    (ws ++ c :: rest).dropWhile isBlank) = _
  rw [hdrop]
  rfl

theorem gives_token_of_end {ws : List Char} (hws : Blanks ws) : token?.Gives ws none [] := by
  have hdrop : ws.dropWhile isBlank = [] := by
    rw [← List.append_nil ws, dropWhile_blanks hws]
    rfl
  show Except.ok ((ws.dropWhile isBlank).head?, ws.dropWhile isBlank) = _
  rw [hdrop]
  rfl

theorem gives_literal (cs rest : List Char) : (literal cs).Gives (cs ++ rest) () rest := by
  induction cs with
  | nil => exact gives_pure () rest
  | cons c cs ih =>
    show ((if c = c then do advance; literal cs else throw .expectedLiteral : Reader Unit)).Gives
      (c :: (cs ++ rest)) () rest
    rw [if_pos rfl]
    exact (gives_advance c _).bind ih

/-! ## Lists -/

theorem blanks_nil : Blanks [] := by
  intro c hc
  cases hc

/-- Before an item the reader finds that the list goes on. -/
theorem gives_nextElement {first : Bool} {gap rest : List Char} {c : Char} (hg : Gap first gap)
    (hc : isBlank c = false) (hne : c ≠ ']') :
    (nextElement first).Gives (gap ++ c :: rest) true (c :: rest) := by
  cases hg with
  | first hws =>
    refine (gives_token hws hc).bind ?_
    split
    · contradiction
    · next h => exact absurd (Option.some.inj h) hne
    · exact gives_pure true _
  | @comma ws ws' hws hws' =>
    rw [List.append_assoc]
    refine (gives_token hws (by decide)).bind ?_
    refine (gives_advance ',' _).bind ((gives_token hws' hc).bind ?_)
    split
    · contradiction
    · next h => exact absurd (Option.some.inj h) hne
    · exact gives_pure true _

/-- Before the closing bracket the reader finds that the list ends. -/
theorem gives_nextElement_of_end {ws : List Char} (hws : Blanks ws) (first : Bool)
    (rest : List Char) :
    (nextElement first).Gives (ws ++ ']' :: rest) false (']' :: rest) :=
  (gives_token hws (by decide)).bind (gives_pure false _)

theorem gives_endList (rest : List Char) : endList.Gives (']' :: rest) () rest :=
  (gives_token blanks_nil (by decide)).bind (gives_advance ']' rest)

/-! ## Objects -/

/-- Before a key the reader finds that the object goes on. -/
theorem gives_nextMember {first : Bool} {gap rest : List Char} (hg : Gap first gap) :
    (nextMember first).Gives (gap ++ '"' :: rest) true ('"' :: rest) := by
  cases hg with
  | first hws => exact (gives_token hws (by decide)).bind (gives_pure true _)
  | @comma ws ws' hws hws' =>
    rw [List.append_assoc]
    exact (gives_token hws (by decide)).bind
      ((gives_advance ',' _).bind ((gives_token hws' (by decide)).bind (gives_pure true _)))

/-- Before the closing bracket the reader finds that the object ends. -/
theorem gives_nextMember_of_end {ws : List Char} (hws : Blanks ws) (first : Bool)
    (rest : List Char) :
    (nextMember first).Gives (ws ++ '}' :: rest) false ('}' :: rest) :=
  (gives_token hws (by decide)).bind (gives_pure false _)

theorem gives_colon {ws : List Char} (hws : Blanks ws) (rest : List Char) :
    colon.Gives (ws ++ ':' :: rest) () rest :=
  (gives_token hws (by decide)).bind (gives_advance ':' rest)

theorem gives_endObject (rest : List Char) : endObject.Gives ('}' :: rest) () rest :=
  (gives_token blanks_nil (by decide)).bind (gives_advance '}' rest)

/-! ## Whole texts -/

/-- A reader that takes all that is seen, up to blanks, gives the result of the run. -/
theorem run_eq {r : Reader α} {bytes : ByteArray} {a : α} {ws : List Char}
    (h : r.Gives (seenBytes bytes) a ws) (hws : Blanks ws) : r.run bytes = .ok a := by
  have hend : endOfInput.Gives ws () [] := (gives_token_of_end hws).bind (gives_pure () [])
  have hwhole : (do let a ← r; endOfInput; return a : Reader α).Gives (seenBytes bytes) a [] :=
    h.bind (hend.bind (gives_pure a []))
  unfold Gives at hwhole
  unfold run
  simp only [hwhole]
  rfl

end Reader

end VariablePrecision.Json
