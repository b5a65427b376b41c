/-
  VariablePrecision.Proofs.Json.Text

  Quoted texts: every spelling is read back, and what is written is a spelling.

  Both directions go character by character.  `readText_append` reads one character in
  any of its spellings; `charSpelled_writtenChar` says that the writer uses one of them.
-/

import VariablePrecision.Proofs.Json.Tokens

namespace VariablePrecision.Json

/-! ## Escapes by code units -/

theorem length_le_utf8ByteSize (cs : List Char) :
    cs.length ≤ (String.ofList cs).utf8ByteSize := by
  induction cs with
  | nil => simp
  | cons c cs ih =>
    have hcons : String.ofList (c :: cs) = String.singleton c ++ String.ofList cs := by
      rw [String.singleton_eq_ofList, ← String.ofList_append, List.singleton_append]
    have hc : 0 < c.utf8Size := c.utf8Size_pos
    rw [hcons, String.utf8ByteSize_append, String.utf8ByteSize_singleton, List.length_cons]
    omega

theorem fourHexDigits_append {n : Nat} {ds : List Char} (h : HexSpelled n ds)
    (rest : List Char) : fourHexDigits (ds ++ rest) = .ok n := by
  obtain ⟨c₃, c₂, c₁, c₀, d₃, d₂, d₁, d₀, rfl, h₃, h₂, h₁, h₀, rfl⟩ := h
  have hsize := length_le_utf8ByteSize [c₃, c₂, c₁, c₀]
  have htake : ([c₃, c₂, c₁, c₀] ++ rest).take 4 = [c₃, c₂, c₁, c₀] := rfl
  have hdigits : [c₃, c₂, c₁, c₀].mapM hexDigit? = some [d₃, d₂, d₁, d₀] := by
    simp [h₃, h₂, h₁, h₀]
  unfold fourHexDigits
  rw [htake, if_neg (by simpa using hsize), hdigits]
  simp only [List.foldl_cons, List.foldl_nil, Except.ok.injEq]
  omega

theorem HexSpelled.length {n : Nat} {ds : List Char} (h : HexSpelled n ds) : ds.length = 4 := by
  obtain ⟨c₃, c₂, c₁, c₀, d₃, d₂, d₁, d₀, rfl, -⟩ := h
  rfl

theorem codeUnitEscape_unit {c : Char} {ds : List Char} (h : HexSpelled c.toNat ds)
    (rest : List Char) : codeUnitEscape (ds ++ rest) = .ok (c, 4) := by
  have hvalid : c.toNat < 0xD800 ∨ 0xDFFF < c.toNat := by
    rcases c.valid with hc | ⟨hc, -⟩
    · exact .inl hc
    · exact .inr hc
  have htrailing : isTrailingSurrogate c.toNat = false := by
    simp only [isTrailingSurrogate, Bool.and_eq_false_iff, decide_eq_false_iff_not]
    omega
  have hleading : isLeadingSurrogate c.toNat = false := by
    simp only [isLeadingSurrogate, Bool.and_eq_false_iff, decide_eq_false_iff_not]
    omega
  unfold codeUnitEscape
  rw [fourHexDigits_append h]
  show (if isTrailingSurrogate c.toNat = true then _ else _) = _
  rw [htrailing, hleading]
  show Except.ok (Char.ofNat c.toNat, 4) = _
  rw [Char.ofNat_toNat]

/-- The first half of a pair is read, and its second half is next. -/
theorem codeUnitEscape_of_leading {n m : Nat} {cs rest : List Char}
    (h : fourHexDigits cs = .ok n) (hn : isTrailingSurrogate n = false)
    (hn' : isLeadingSurrogate n = true) (hdrop : cs.drop 4 = '\\' :: 'u' :: rest)
    (h' : fourHexDigits rest = .ok m) (hm : isTrailingSurrogate m = true) :
    codeUnitEscape cs =
      .ok (Char.ofNat (0x10000 + (n - 0xD800) * 0x400 + (m - 0xDC00)), 10) := by
  unfold codeUnitEscape
  rw [h]
  show (if isTrailingSurrogate n = true then _ else _) = _
  rw [hn, hn', hdrop]
  show (fourHexDigits rest >>= fun m => _) = _
  rw [h']
  show (if isTrailingSurrogate m = true then _ else _) = _
  rw [hm]
  rfl

theorem codeUnitEscape_pair {c : Char} {ds ds' : List Char} (hc : 0x10000 ≤ c.toNat)
    (h : HexSpelled (0xD800 + (c.toNat - 0x10000) / 0x400) ds)
    (h' : HexSpelled (0xDC00 + (c.toNat - 0x10000) % 0x400) ds') (rest : List Char) :
    codeUnitEscape (ds ++ ('\\' :: 'u' :: (ds' ++ rest))) = .ok (c, 10) := by
  have hmax : c.toNat < 0x110000 := by
    have hv := c.valid
    simp only [UInt32.isValidChar, Nat.isValidChar] at hv
    show c.val.toNat < 0x110000
    omega
  have hdrop : (ds ++ ('\\' :: 'u' :: (ds' ++ rest))).drop 4 = '\\' :: 'u' :: (ds' ++ rest) :=
    List.drop_left' h.length
  have hread := codeUnitEscape_of_leading (fourHexDigits_append h _)
    (by simp only [isTrailingSurrogate, Bool.and_eq_false_iff, decide_eq_false_iff_not]; omega)
    (by simp only [isLeadingSurrogate, Bool.and_eq_true, decide_eq_true_eq]; omega)
    hdrop (fourHexDigits_append h' rest)
    (by simp only [isTrailingSurrogate, Bool.and_eq_true, decide_eq_true_eq]; omega)
  have hvalue : 0x10000 + (0xD800 + (c.toNat - 0x10000) / 0x400 - 0xD800) * 0x400 +
      (0xDC00 + (c.toNat - 0x10000) % 0x400 - 0xDC00) = c.toNat := by omega
  rw [hread, hvalue, Char.ofNat_toNat]

/-! ## Reading -/

/-- The characters behind an escape that was read. -/
theorem readText_escape {c : Char} {n : Nat} {cs : List Char}
    (h : escapedChar cs = .ok (c, n)) :
    readText ('\\' :: cs) = (readText (cs.drop n)).map fun p => (c :: p.1, p.2) := by
  rw [readText, if_neg (by decide), if_pos rfl, h]
  show (readText (cs.drop n) >>= fun p => pure (c :: p.1, p.2)) = _
  cases readText (cs.drop n) <;> rfl

theorem escapedChar_unit {c : Char} {cs : List Char} {n : Nat}
    (h : codeUnitEscape cs = .ok (c, n)) : escapedChar ('u' :: cs) = .ok (c, n + 1) := by
  show (codeUnitEscape cs >>= fun p => pure (p.1, p.2 + 1)) = _
  rw [h]
  rfl

theorem escapedChar_letter {e c : Char} (h : (e, c) ∈ letterEscapes) (rest : List Char) :
    escapedChar (e :: rest) = .ok (c, 1) := by
  simp only [letterEscapes, List.mem_cons, Prod.mk.injEq, List.not_mem_nil, or_false] at h
  rcases h with ⟨rfl, rfl⟩ | ⟨rfl, rfl⟩ | ⟨rfl, rfl⟩ | ⟨rfl, rfl⟩ | ⟨rfl, rfl⟩ | ⟨rfl, rfl⟩ |
    ⟨rfl, rfl⟩ | ⟨rfl, rfl⟩ <;> rfl

/-- What may stand bare in a text is not taken for a stray byte. -/
theorem ne_strayByte_of_isControl {c : Char} (h : isControl c = false) : c ≠ strayByte := by
  rintro rfl
  contradiction

/-- A character that is spelled in any way is read before whatever follows. -/
theorem readText_append {c : Char} {cs : List Char} (h : CharSpelled c cs) (rest : List Char) :
    readText (cs ++ rest) = (readText rest).map fun p => (c :: p.1, p.2) := by
  cases h with
  | bare hq hb hc =>
    rw [List.singleton_append, readText, if_neg hq, if_neg hb,
      if_neg (ne_strayByte_of_isControl hc), if_neg (by simp [hc])]
    cases readText rest <;> rfl
  | @letter e _ he =>
    exact readText_escape (escapedChar_letter he rest)
  | @unit _ ds hu =>
    have hread := escapedChar_unit (codeUnitEscape_unit hu rest)
    show readText ('\\' :: 'u' :: (ds ++ rest)) = _
    rw [readText_escape hread]
    have hdrop : ('u' :: (ds ++ rest)).drop (4 + 1) = rest := by
      rw [List.drop_succ_cons, ← hu.length, List.drop_left]
    rw [hdrop]
  | @pair _ ds ds' hc hu hu' =>
    have hread := escapedChar_unit (codeUnitEscape_pair hc hu hu' rest)
    have happend : '\\' :: 'u' :: ds ++ '\\' :: 'u' :: ds' ++ rest =
        '\\' :: 'u' :: (ds ++ ('\\' :: 'u' :: (ds' ++ rest))) := by simp
    rw [happend, readText_escape hread]
    have hdrop : ('u' :: (ds ++ ('\\' :: 'u' :: (ds' ++ rest)))).drop (10 + 1) = rest := by
      have hlen : (ds ++ '\\' :: 'u' :: ds').length = 10 := by
        simp [hu.length, hu'.length]
      have hassoc : ds ++ ('\\' :: 'u' :: (ds' ++ rest)) = (ds ++ '\\' :: 'u' :: ds') ++ rest := by
        simp
      rw [List.drop_succ_cons, hassoc, ← hlen, List.drop_left]
    rw [hdrop]

theorem readText_body {text body : List Char} (h : CharsSpelled text body) (rest : List Char) :
    readText (body ++ '"' :: rest) = .ok (text, rest) := by
  induction h with
  | nil => rw [List.nil_append, readText, if_pos rfl]
  | cons hc _ ih =>
    rw [List.append_assoc, readText_append hc, ih]
    rfl

/-- A text in any spelling is read. -/
theorem Reader.gives_text {s : String} {cs : List Char} (h : TextSpelled s cs)
    (rest : List Char) : Reader.text.Gives (cs ++ rest) s rest := by
  obtain ⟨body, hbody, rfl⟩ := h
  have hread : readText (body ++ ['"'] ++ rest) = .ok (s.toList, rest) := by
    rw [List.append_assoc]
    exact readText_body hbody rest
  have hlift : (lift readText).Gives (body ++ ['"'] ++ rest) s.toList rest := gives_lift hread
  refine (gives_advance '"' _).bind (hlift.bind ?_)
  show (pure (String.ofList s.toList) : Reader String).Gives rest s rest
  rw [String.ofList_toList]
  exact gives_pure s rest

theorem TextSpelled.head {s : String} {cs : List Char} (h : TextSpelled s cs) :
    ∃ body, cs = '"' :: body := by
  obtain ⟨body, -, rfl⟩ := h
  exact ⟨_, rfl⟩

/-! ## Writing -/

theorem hexDigit?_digitChar {d : Nat} (h : d < 16) : hexDigit? d.digitChar = some d := by
  have hall : ∀ d : Fin 16, hexDigit? (Nat.digitChar d) = some d.val := by decide
  exact hall ⟨d, h⟩

theorem charSpelled_writtenChar (c : Char) : CharSpelled c (writtenChar c) := by
  unfold writtenChar
  -- the seven characters that are written with a letter
  iterate 7
    split
    · next h =>
      rw [h]
      exact .letter (by decide)
  split
  · next h =>
    -- a control has two digits, which follow two zeros
    have hc : c.toNat < 0x20 := by simpa [isControl] using h
    exact .unit ⟨'0', '0', _, _, 0, 0, c.toNat / 16, c.toNat % 16, rfl, by decide, by decide,
      hexDigit?_digitChar (by omega), hexDigit?_digitChar (by omega), by omega⟩
  · next hq hb _ _ _ _ _ hc => exact .bare hq hb (by simpa using hc)

theorem charsSpelled_flatMap (text : List Char) : CharsSpelled text (text.flatMap writtenChar) := by
  induction text with
  | nil => exact .nil
  | cons c text ih => exact .cons (charSpelled_writtenChar c) ih

/-- What is written for a text is a spelling of it. -/
theorem textSpelled_writtenText (s : String) : TextSpelled s (writtenText s) :=
  ⟨_, charsSpelled_flatMap s.toList, rfl⟩

end VariablePrecision.Json
