/-
  VariablePrecision.Proofs.Emulator.Safety

  No emulator that starts can break the arithmetic of its roundings.

  Three facts meet here.  Tokens only give options that make a configuration; with it,
  and with any registry, the emulator only clamps to targets that are valid in the
  format of the value; and on valid targets the rounding never leaves the words of the
  machine.
-/

import VariablePrecision.Proofs.Emulator.Clamps
import VariablePrecision.Proofs.Emulator.Options
import VariablePrecision.Proofs.Files.Action
import VariablePrecision.Proofs.Machine.Rounding
import VariablePrecision.Proofs.Registry.Construction

namespace VariablePrecision.Emulator

open FileAction (Gives Yields yields_bind yields_pure yields_throw)

/-- Clamping on machine words, to valid targets only. -/
def machineClamp : Clamper Option := fun f x side t ctx =>
  if t.fault? f = none then Machine.clamp x side t ctx else none

theorem machineClamp_right {ctx : Context} (hp : Machine.FitsPolicy ctx.policy) :
    RightOnValid machineClamp ctx := by
  intro f t ht x side
  unfold machineClamp
  rw [if_pos (Target.fault?_eq_none_iff.2 ht)]
  exact Machine.clamp_eq ht x side hp

/-! ## Starting -/

/-- Whatever the registry and the log are, the configuration stays. -/
theorem ofConfiguration_yields (config : Configuration) (knowsStack : Bool)
    (registry : Option Registry) :
    Yields (ofConfiguration config knowsStack registry) (fun e => e.config = config) := by
  unfold ofConfiguration
  dsimp only
  split
  all_goals
    refine yields_bind fun reg => ?_
    split
    · exact yields_bind fun _ => yields_pure rfl
    · exact yields_bind fun _ => yields_pure rfl

/-- An emulator has the settings that its tokens give. -/
theorem init_yields (tokens : List String) (knowsStack : Bool) (registry : Option Registry) :
    Yields (init tokens knowsStack registry)
      (fun e => Configuration.parse tokens = .ok e.config) := by
  unfold init
  split
  · next config hconfig =>
    intro files e files' h
    rw [hconfig, ofConfiguration_yields config knowsStack registry files e files' h]
  · exact yields_throw _

theorem toOptions_of_ofOptions {o : Options} {config : Configuration}
    (h : Configuration.ofOptions o = .ok config) : config.toOptions = o := by
  unfold Configuration.ofOptions at h
  split at h
  · contradiction
  · contradiction
  · rw [← Except.ok.inj h]

theorem sound_of_init {tokens : List String} {knowsStack : Bool} {registry : Option Registry}
    {files files' : Files} {e : Emulator}
    (h : Gives (init tokens knowsStack registry) files e files') : e.config.toOptions.Sound := by
  obtain ⟨o, ho, hconfig⟩ := bind_eq_ok_iff.1 (init_yields tokens knowsStack registry _ _ _ h)
  rw [toOptions_of_ofOptions hconfig]
  exact Options.sound_of_parse ho

theorem fitsPolicy_of_sound {o : Options} (h : o.Sound) : Machine.FitsPolicy o.context.policy := by
  have := h.absoluteExponent
  unfold Machine.FitsPolicy
  omega

/-! ## Safety -/

/-- Options that tokens give make a configuration, and records that make a registry only have valid
    targets.  Every emulator that starts from tokens, with or without a registry, only clamps to
    targets that are valid in the format of the value, at operations and at both ends of calls.
    On a valid target, under every policy and flag, rounding on machine words never overflows,
    and gives the same value. -/
theorem init_clamps_in_range (tokens : List String) :
    (∀ o, Options.parse tokens = .ok o →
      ∃ config, Configuration.ofOptions o = .ok config ∧ config.toOptions = o) ∧
    (∀ records reg, Registry.ofRecords records = .ok reg → ∀ r ∈ records, r.Valid) ∧
    (∀ knowsStack registry files e files',
      Gives (init tokens knowsStack registry) files e files' →
      (∀ (f : Format) (op : Operation) (x y : Binary f) (site : Option String),
        binaryOpWith machineClamp e op x y site = some (e.binaryOp op x y site)) ∧
      ∀ (crossing : Crossing) (stack : CallStack) (site : Option String)
        (arguments : List Argument) (files : Files),
        roundArgumentsWith machineClamp e
          { crossing, depth := if e.knowsStack then stack.depth else 0, site } arguments =
          some ((e.cross crossing stack site arguments).run files).1.1) ∧
    (∀ (f : Format) (t : Target) (ctx : Context), t.Valid f → Machine.FitsPolicy ctx.policy →
      Machine.emax t = some t.emax ∧ Machine.emin t = some t.emin ∧
      ∀ x : Binary f,
        (∀ side, Machine.clamp x side t ctx = some (x.clamp side t ctx)) ∧
        Machine.round x t.precision ctx.policy = some (x.round t.precision ctx.policy) ∧
        Machine.roundSubnormal x t.emin t.precision ctx.policy =
          some (x.roundSubnormal t.emin t.precision ctx.policy) ∧
        Machine.roundAbsolute x t.precision ctx.policy =
          some (x.roundAbsolute t.precision ctx.policy)) := by
  refine ⟨fun o ho => (Options.sound_of_parse ho).ofOptions_eq_ok,
    fun _ _ h => Registry.valid_of_ofRecords h, ?_, ?_⟩
  · intro knowsStack registry files e files' h
    have hright : RightOnValid machineClamp e.config.context :=
      machineClamp_right (fitsPolicy_of_sound (sound_of_init h))
    exact ⟨fun f op x y site => binaryOpWith_eq hright op x y site,
      fun crossing stack site arguments files => roundArgumentsWith_eq hright _ arguments⟩
  · intro f t ctx ht hp
    have hprecision := Nat.le_trans ht.precision_le f.mantissaBits_le
    have hemin := Machine.emin_bounds ht
    exact ⟨Machine.emax_eq ht, Machine.emin_eq ht, fun x =>
      ⟨fun side => Machine.clamp_eq ht x side hp, Machine.round_eq x hprecision hp,
        Machine.roundSubnormal_eq x hemin hprecision hp, Machine.roundAbsolute_eq x hprecision hp⟩⟩

/-- Tokens that ask for the coarsest format, and for an absolute bound at its limit. -/
def coarseTokens : List String :=
  ["vprec", "--precision-binary64=1", "--range-binary64", "2", "--error-mode", "ABS",
    "--max-abs-error-exponent", "-2048", "--daz", "--instrument=all"]

/-- The settings that they give. -/
def coarseOptions : Options where
  targets := { binary64 := ⟨1, 2⟩ }
  coverage := .all
  context := { policy := ⟨.absolute, -2048⟩, daz := true }

/-- One product of coarse numbers. -/
def coarseRecords : List Record :=
  [{ id := "a", kind := .operation ⟨.arithmetic .mul, .scalar .binary64, 1, ⟨1, 2⟩⟩ }]

/-- The product of the least numbers at its site, and the least exponent of an absolute bound. -/
theorem init_clamps_in_range_coarse :
    Options.parse coarseTokens = .ok coarseOptions ∧
    (∃ config, Configuration.ofOptions coarseOptions = .ok config ∧
      config.toOptions = coarseOptions) ∧
    (∃ reg, Registry.ofRecords coarseRecords = .ok reg ∧ (∀ r ∈ coarseRecords, r.Valid) ∧
      ∃ e, Gives (init coarseTokens true (some reg)) {} e {} ∧
        binaryOpWith machineClamp e .mul (.ofBits .binary64 1) (.ofBits .binary64 1) (some "a") =
          some (e.binaryOp .mul (.ofBits .binary64 1) (.ofBits .binary64 1) (some "a"))) ∧
    Target.Valid .binary64 ⟨1, 2⟩ ∧ Machine.FitsPolicy ⟨.combined, -2147483648⟩ ∧
    Machine.clamp (.ofBits .binary64 1) .operand ⟨1, 2⟩ { policy := ⟨.combined, -2147483648⟩ } =
      some (Binary.clamp (.ofBits .binary64 1) .operand ⟨1, 2⟩
        { policy := ⟨.combined, -2147483648⟩ }) := by
  obtain ⟨hoptions, hrecords, hclamps, hwords⟩ := init_clamps_in_range coarseTokens
  have hparse : Options.parse coarseTokens = .ok coarseOptions := by decide +kernel
  obtain ⟨config, hconfig, hsame⟩ := hoptions coarseOptions hparse
  obtain ⟨reg, hreg⟩ := Registry.exists_ofRecords
    (show Registry.firstFault? [] coarseRecords = none by decide +kernel)
  have hstart : Gives (init coarseTokens true (some reg)) {} ⟨config, some reg, true, none⟩ {} := by
    have hconfigured : Configuration.parse coarseTokens = .ok config := by
      unfold Configuration.parse
      rw [hparse]
      exact hconfig
    unfold init
    rw [hconfigured]
    obtain ⟨o, hvalid⟩ := config
    obtain rfl : o = coarseOptions := hsame
    rfl
  have hvalid : Target.Valid .binary64 ⟨1, 2⟩ := ⟨by decide, by decide, by decide, by decide⟩
  have hpolicy : Machine.FitsPolicy ⟨.combined, -2147483648⟩ := by
    unfold Machine.FitsPolicy
    decide
  obtain ⟨-, -, hclamp⟩ :=
    hwords .binary64 ⟨1, 2⟩ { policy := ⟨.combined, -2147483648⟩ } hvalid hpolicy
  exact ⟨hparse, ⟨config, hconfig, hsame⟩,
    ⟨reg, hreg, hrecords coarseRecords reg hreg,
      _, hstart, (hclamps true (some reg) {} _ {} hstart).1 .binary64 .mul _ _ (some "a")⟩,
    hvalid, hpolicy, (hclamp _).1 .operand⟩

end VariablePrecision.Emulator
