/-
  VariablePrecision.Proofs.Json.Bytes

  The bytes of a text are seen as its characters, but for null characters
  (`seenBytes_toUTF8`).  No well-formed text has one, so a spelling of a value is seen as
  it stands (`seenBytes_of_spelled`).
-/

import VariablePrecision.Json.Bytes
import VariablePrecision.Proofs.Json.Value

namespace VariablePrecision.Json

/-! ## The bytes of a text -/

theorem seenFrom_utf8Encode (before : ByteArray) (cs : List Char) :
    seenFrom (before ++ cs.utf8Encode) before.size = cs.map seen := by
  induction cs generalizing before with
  | nil =>
    rw [seenFrom, if_neg (by simp)]
    rfl
  | cons c cs ih =>
    have hc : [c].utf8Encode.size = c.utf8Size := by
      rw [List.utf8Encode_singleton, List.size_toByteArray, String.length_utf8EncodeChar]
    have hnext : before.size + c.utf8Size = (before ++ [c].utf8Encode).size := by
      rw [ByteArray.size_append, hc]
    have hlt : before.size < (before ++ (c :: cs).utf8Encode).size := by
      have := c.utf8Size_pos
      rw [List.utf8Encode_cons, ByteArray.size_append, ByteArray.size_append, hc]
      omega
    have hdecode : (before ++ (c :: cs).utf8Encode).utf8DecodeChar? before.size = some c := by
      rw [ByteArray.utf8DecodeChar?_eq_utf8DecodeChar?_extract,
        ByteArray.extract_append_eq_right rfl (by rw [ByteArray.size_append]),
        List.utf8DecodeChar?_utf8Encode_cons]
    rw [seenFrom, if_pos hlt, hdecode]
    dsimp only
    rw [List.utf8Encode_cons, ← ByteArray.append_assoc, hnext, ih, List.map_cons]

theorem seenBytes_toUTF8 (text : String) : seenBytes text.toUTF8 = text.toList.map seen := by
  have hfrom := seenFrom_utf8Encode .empty text.toList
  rwa [ByteArray.empty_append, String.utf8Encode_toList] at hfrom

/-! ## Well-formed texts -/

/-- Nothing in the text is taken for a stray byte. -/
def Unmarked (cs : List Char) : Prop := strayByte ∉ cs

instance (cs : List Char) : Decidable (Unmarked cs) :=
  inferInstanceAs (Decidable (strayByte ∉ cs))

theorem Unmarked.nil : Unmarked [] := List.not_mem_nil

theorem Unmarked.cons {c : Char} {cs : List Char} (hc : strayByte ≠ c) (h : Unmarked cs) :
    Unmarked (c :: cs) := List.not_mem_cons_of_ne_of_not_mem hc h

theorem Unmarked.append {cs ds : List Char} (h : Unmarked cs) (h' : Unmarked ds) :
    Unmarked (cs ++ ds) := List.not_mem_append h h'

theorem Unmarked.map_seen {cs : List Char} (h : Unmarked cs) : cs.map seen = cs := by
  have hseen : ∀ c ∈ cs, seen c = c := fun c hc => if_neg (ne_of_mem_of_not_mem hc h)
  rw [List.map_congr_left hseen, List.map_id']

theorem Blanks.unmarked {ws : List Char} (h : Blanks ws) : Unmarked ws :=
  fun hmem => absurd (h _ hmem) (by decide)

theorem Gap.unmarked {first : Bool} {gap : List Char} (h : Gap first gap) : Unmarked gap := by
  cases h with
  | first hws => exact hws.unmarked
  | comma hws hws' => exact .append hws.unmarked (.cons (by decide) hws'.unmarked)

theorem Digits.unmarked {ds : List Char} (h : Digits ds) : Unmarked ds :=
  fun hmem => absurd (h.2 _ hmem) (by decide)

theorem NumberToken.unmarked {cs : List Char} (h : NumberToken cs) : Unmarked cs := by
  obtain ⟨sign, whole, fraction, exponent, hsign, hwhole, hfraction, hexponent, rfl⟩ := h
  have hminus : ∀ s ∈ ([[], ['-']] : List (List Char)), Unmarked s := by decide
  have hsigns : ∀ s ∈ ([[], ['+'], ['-']] : List (List Char)), Unmarked s := by decide
  have hfraction : Unmarked fraction := by
    obtain rfl | ⟨ds, hds, rfl⟩ := hfraction
    · exact .nil
    · exact .cons (by decide) hds.unmarked
  have hexponent : Unmarked exponent := by
    obtain rfl | ⟨mark, sign, ds, hmark, hsign, hds, rfl⟩ := hexponent
    · exact .nil
    · refine .cons ?_ (.append (hsigns sign hsign) hds.unmarked)
      obtain rfl | rfl := hmark <;> decide
  exact .append (.append (.append (hminus sign hsign) hwhole.1.unmarked) hfraction) hexponent

theorem HexSpelled.unmarked {n : Nat} {ds : List Char} (h : HexSpelled n ds) : Unmarked ds := by
  obtain ⟨c₃, c₂, c₁, c₀, d₃, d₂, d₁, d₀, rfl, h₃, h₂, h₁, h₀, -⟩ := h
  have hne : ∀ c d, hexDigit? c = some d → strayByte ≠ c := by
    rintro c d hc rfl
    contradiction
  exact .cons (hne _ _ h₃) (.cons (hne _ _ h₂) (.cons (hne _ _ h₁) (.cons (hne _ _ h₀) .nil)))

theorem QuotedRest.unmarked {body : List Char} (h : QuotedRest body) : Unmarked body := by
  induction h with
  | nil => decide
  | cons hunit _ ih =>
    refine .append ?_ ih
    cases hunit with
    | bare hq hb hc =>
      intro hmem
      obtain rfl := List.mem_singleton.1 hmem
      contradiction
    | letter he =>
      have hne : ∀ p ∈ letterEscapes, strayByte ≠ p.1 := by decide
      exact .cons (by decide) (.cons (hne _ he) .nil)
    | unit hhex => exact .cons (by decide) (.cons (by decide) hhex.unmarked)

mutual

theorem WellFormed.unmarked {cs : List Char} : WellFormed cs → Unmarked cs
  | .null => by decide
  | .boolean (b := b) => by cases b <;> decide
  | .number h => h.unmarked
  | .text h => .cons (by decide) h.unmarked
  | .list h => .cons (by decide) h.unmarked
  | .object h => .cons (by decide) h.unmarked

theorem ItemsFormed.unmarked {first : Bool} {body : List Char} :
    ItemsFormed first body → Unmarked body
  | .nil hws => .append hws.unmarked (by decide)
  | .cons hg hv hs => .append hg.unmarked (.append hv.unmarked hs.unmarked)

theorem MembersFormed.unmarked {first : Bool} {body : List Char} :
    MembersFormed first body → Unmarked body
  | .nil hws => .append hws.unmarked (by decide)
  | .cons hg hk hw hw' hv hs =>
    have hvalue := Unmarked.append hw'.unmarked (.append hv.unmarked hs.unmarked)
    have hmember := Unmarked.append hw.unmarked (.cons (c := ':') (by decide) hvalue)
    .append hg.unmarked (.cons (by decide) (.append hk.unmarked hmember))

end

/-- A text that spells a value is seen character by character. -/
theorem seenBytes_of_spelled {text : String} {v : Value} {ws cs ws' : List Char}
    (htext : text.toList = ws ++ (cs ++ ws')) (hcs : Spelled v cs) (hws : Blanks ws)
    (hws' : Blanks ws') : seenBytes text.toUTF8 = text.toList := by
  have hunmarked : Unmarked text.toList := by
    rw [htext]
    exact .append hws.unmarked (.append hcs.wellFormed.unmarked hws'.unmarked)
  rw [seenBytes_toUTF8, hunmarked.map_seen]

end VariablePrecision.Json
