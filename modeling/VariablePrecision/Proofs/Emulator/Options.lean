/-
  VariablePrecision.Proofs.Emulator.Options

  Options that were read from tokens can always be emulated.

  Every option keeps both targets within the bounds of their formats and the exponent of
  the absolute bound within its limit, so all settings that tokens give are sound, and
  the check that makes a configuration of them cannot fail.
-/

import VariablePrecision.Emulator.Options
import VariablePrecision.Proofs.CommandLine.Invariant

namespace VariablePrecision

namespace CommandLine

variable {σ α : Type} {P : σ → Prop}

theorem keeps_integerEntry {name : String} {low high : Int} {set : Int → σ → σ}
    {allowsNegative : Bool} (h : ∀ n, low ≤ n → n ≤ high → ∀ s, P s → P (set n s)) :
    (integerEntry name low high set allowsNegative).Keeps P := by
  intro text update hupdate s hs
  dsimp only at hupdate
  split at hupdate
  · next n _ =>
    split at hupdate
    · next hn =>
      rw [← Except.ok.inj hupdate]
      exact h n hn.1 hn.2 s hs
    · contradiction
  · contradiction

theorem keeps_choiceEntry {name : String} {choices : List (String × α)} {set : α → σ → σ}
    (h : ∀ a s, P s → P (set a s)) : (choiceEntry name choices set).Keeps P := by
  intro text update hupdate s hs
  dsimp only at hupdate
  split at hupdate
  · next a _ =>
    rw [← Except.ok.inj hupdate]
    exact h a s hs
  · contradiction

theorem keeps_pathEntry {name : String} {set : String → σ → σ} {letter : Option Char}
    (h : ∀ path s, P s → P (set path s)) : (pathEntry name set letter).Keeps P := by
  intro text update hupdate s hs
  dsimp only at hupdate
  split at hupdate
  · contradiction
  · rw [← Except.ok.inj hupdate]
    exact h text s hs

end CommandLine

namespace Options

open CommandLine

/-- Options that a configuration can have. -/
structure Sound (o : Options) : Prop where
  target : ∀ f, (o.targets.get f).Valid f
  absoluteExponent : o.context.policy.absoluteExponent.natAbs ≤ 2048

theorem get_updateTarget (f g : Format) (update : Target → Target) (o : Options) :
    (o.updateTarget f update).targets.get g =
      if g = f then update (o.targets.get f) else o.targets.get g := by
  cases f <;> cases g <;> rfl

/-- Changing one target soundly leaves the options sound. -/
theorem Sound.updateTarget {f : Format} {update : Target → Target} {o : Options} (ho : o.Sound)
    (h : (update (o.targets.get f)).Valid f) : (o.updateTarget f update).Sound where
  target g := by
    rw [get_updateTarget]
    split
    · next hg => rwa [hg]
    · exact ho.target g
  absoluteExponent := by
    cases f <;> exact ho.absoluteExponent

theorem keeps_precisionEntry (f : Format) : (precisionEntry f).Keeps Sound := by
  apply keeps_integerEntry
  intro n hlow hhigh o ho
  have ht := ho.target f
  have hge : Target.precisionMin ≤ n.toNat := by omega
  have hle : n.toNat ≤ f.mantissaBits := by omega
  exact ho.updateTarget ⟨hge, hle, ht.range_ge, ht.range_le⟩

theorem keeps_rangeEntry (f : Format) : (rangeEntry f).Keeps Sound := by
  apply keeps_integerEntry
  intro n hlow hhigh o ho
  have ht := ho.target f
  have hge : Target.rangeMin ≤ n.toNat := by omega
  have hle : n.toNat ≤ f.exponentBits := by omega
  exact ho.updateTarget ⟨ht.precision_ge, ht.precision_le, hge, hle⟩

/-- No option takes sound settings to others. -/
theorem keeps_of_mem_table : ∀ entry ∈ table, entry.Keeps Sound := by
  simp only [table, List.forall_mem_cons, List.not_mem_nil, false_implies, implies_true, and_true]
  refine ⟨keeps_precisionEntry .binary32, keeps_precisionEntry .binary64,
    keeps_rangeEntry .binary32, keeps_rangeEntry .binary64, ?_, ?_, ?_, ?_, ?_, ?_, ?_, ?_, ?_⟩
  -- of the others, only the exponent of the absolute bound is among what is bounded
  · exact keeps_choiceEntry fun _ _ ho => ⟨ho.target, ho.absoluteExponent⟩
  · exact keeps_choiceEntry fun _ _ ho => ⟨ho.target, ho.absoluteExponent⟩
  · apply keeps_integerEntry
    intro n hlow hhigh o ho
    unfold absoluteExponentLimit at hlow hhigh
    refine ⟨ho.target, ?_⟩
    dsimp only
    omega
  · exact keeps_choiceEntry fun _ _ ho => ⟨ho.target, ho.absoluteExponent⟩
  · exact fun _ ho => ⟨ho.target, ho.absoluteExponent⟩
  · exact fun _ ho => ⟨ho.target, ho.absoluteExponent⟩
  · exact keeps_pathEntry fun _ _ ho => ⟨ho.target, ho.absoluteExponent⟩
  · exact keeps_pathEntry fun _ _ ho => ⟨ho.target, ho.absoluteExponent⟩
  · exact keeps_pathEntry fun _ _ ho => ⟨ho.target, ho.absoluteExponent⟩

theorem sound_default : ({} : Options).Sound where
  target f := by cases f <;> exact Target.native_valid _
  absoluteExponent := by decide

/-- Whatever the tokens are, the options that they give are sound. -/
theorem sound_of_parse {tokens : List String} {o : Options} (h : parse tokens = .ok o) :
    o.Sound := by
  unfold parse at h
  split at h
  · next parsed hparse =>
    rw [← Except.ok.inj h]
    exact parse_keeps keeps_of_mem_table sound_default hparse
  · contradiction

/-- Sound options make a configuration. -/
theorem Sound.ofOptions_eq_ok {o : Options} (ho : o.Sound) :
    ∃ config, Configuration.ofOptions o = .ok config ∧ config.toOptions = o := by
  have h32 := Target.fault?_eq_none_iff.2 (ho.target .binary32)
  have h64 := Target.fault?_eq_none_iff.2 (ho.target .binary64)
  unfold Configuration.ofOptions
  split
  · next fault hfault =>
    rw [h32] at hfault
    contradiction
  · next fault _ hfault =>
    rw [h64] at hfault
    contradiction
  · exact ⟨_, rfl, rfl⟩

end Options

end VariablePrecision
