/-
  VariablePrecision.Proofs.Emulator.Clamps

  Which targets the emulator clamps values to.

  Here operations and the ends of calls are rounded by any clamp that is given, even one
  with effects: one that fails, or that writes down what it is asked for.  The main laws
  `binaryOpWith_eq` and `roundArgumentsWith_eq` say that a clamp which is right on valid
  targets is right everywhere, so the emulator never asks for any other target, whatever
  the operation, the place and the values.
-/

import VariablePrecision.Emulator.Call
import VariablePrecision.Proofs.Registry.Lookup

namespace VariablePrecision.Emulator

/-- A clamp with effects. -/
abbrev Clamper (m : Type → Type) : Type :=
  (f : Format) → Binary f → Side → Target → Context → m (Binary f)

section

variable {m : Type → Type} [Monad m] (c : Clamper m) (e : Emulator) {f : Format}

/-! ## Rounding by a given clamp -/

/-- A value on one side of an operation. -/
def roundSideWith (side : Side) (target : Target) (x : Binary f) : m (Binary f) :=
  if e.config.mode.rounds side then c f x side target e.config.context else pure x

/-- An operation as if it was done in the target format. -/
def emulateWith (target : Target) (op : Operation) (x y : Binary f) : m (Binary f) := do
  let x ← roundSideWith c e .operand target x
  let y ← roundSideWith c e .operand target y
  roundSideWith c e .result target (op.apply x y)

/-- The result of an operation at a site. -/
def binaryOpWith (op : Operation) (x y : Binary f) (site : Option String) :
    m (Except Error (Binary f)) :=
  match e.operationTarget f site with
  | .error err => pure (.error err)
  | .ok none => pure (.ok (op.apply x y))
  | .ok (some target) => .ok <$> emulateWith c e target op x y

/-- A number at a place, with the line that tells of its rounding. -/
def roundNumberWith (place : Place) (target : Target) (index : Nat) (element : Option Nat)
    (x : Binary f) : m (Binary f × LogLine) := do
  let y ← c f x place.crossing.side target e.config.context
  return (y, { depth := place.depth, crossing := place.crossing, site := place.site, index,
               element, format := f, before := x, after := y })

/-- The numbers of an array from a position on. -/
def roundElementsWith (place : Place) (target : Target) (index : Nat) :
    Nat → List (Binary f) → m (List (Binary f × LogLine))
  | _, [] => pure []
  | k, x :: xs => do
      let y ← roundNumberWith c e place target index (some k) x
      let ys ← roundElementsWith place target index (k + 1) xs
      return y :: ys

/-- An argument at a place. -/
def roundArgumentWith (place : Place) (target : Target) (index : Nat) :
    Argument → m (Argument × List LogLine)
  | .scalar f x => do
      let (y, line) ← roundNumberWith c e place target index none x
      return (.scalar f y, [line])
  | .array f xs => do
      let rounded ← roundElementsWith c e place target index 0 xs
      return (.array f (rounded.map Prod.fst), rounded.map Prod.snd)

/-- The arguments from a position on. -/
def roundFromWith (place : Place) (infos : Option (List ArgumentInfo)) :
    Nat → List Argument → m Outcome
  | _, [] => pure { arguments := [] }
  | index, a :: rest =>
      match e.argumentTarget place infos index a.format with
      | .error err => pure { arguments := a :: rest, fault := some err }
      | .ok target => do
          let (b, lines) ← roundArgumentWith c e place target index a
          let outcome ← roundFromWith place infos (index + 1) rest
          return { outcome with
            arguments := b :: outcome.arguments, lines := lines ++ outcome.lines }

/-- The values at an end of a call. -/
def roundArgumentsWith (place : Place) (arguments : List Argument) : m Outcome :=
  if e.config.mode.rounds place.crossing.side && e.config.coverage.coversArguments then
    match e.descriptors place with
    | .error err => pure { arguments, fault := some err }
    | .ok infos => roundFromWith c e place infos 0 arguments
  else pure { arguments }

end

/-! ## Targets -/

variable {e : Emulator} {f : Format}

/-- The target of an operation is valid in the format of its operands. -/
theorem valid_of_operationTarget {site : Option String} {t : Target}
    (h : e.operationTarget f site = .ok (some t)) : t.Valid f := by
  unfold operationTarget at h
  split at h
  · rw [← Option.some.inj (Except.ok.inj h)]
    exact e.config.valid f
  · split at h
    · obtain ⟨info, hinfo, h⟩ := bind_eq_ok_iff.1 h
      obtain ⟨_, hformat, h⟩ := bind_eq_ok_iff.1 h
      rw [← Option.some.inj (Except.ok.inj h), ← Error.checkFormat_eq_ok_iff.1 hformat]
      exact Registry.valid_of_lookupOperation hinfo
    · cases Except.ok.inj h

/-- All targets that a call site describes are valid in their own formats. -/
theorem valid_of_descriptors {place : Place} {infos : List ArgumentInfo}
    (h : e.descriptors place = .ok (some infos)) :
    ∀ info ∈ infos, info.target.Valid info.dataType.format := by
  unfold descriptors at h
  split at h
  · cases Except.ok.inj h
  · obtain ⟨r, hr, h⟩ := bind_eq_ok_iff.1 h
    have hvalid := Registry.valid_of_lookupCall hr
    intro info hinfo
    apply hvalid
    rw [← Option.some.inj (Except.ok.inj h)] at hinfo
    cases hc : place.crossing with
    | enter =>
      rw [hc] at hinfo
      exact List.mem_append_left _ hinfo
    | exit =>
      rw [hc] at hinfo
      exact List.mem_append_right _ hinfo

/-- The target of an argument is valid in the format of its numbers. -/
theorem valid_of_argumentTarget {place : Place} {infos : Option (List ArgumentInfo)}
    (hinfos : ∀ l ∈ infos, ∀ info ∈ l, info.target.Valid info.dataType.format) {index : Nat}
    {t : Target} (h : e.argumentTarget place infos index f = .ok t) : t.Valid f := by
  unfold argumentTarget at h
  split at h
  · rw [← Except.ok.inj h]
    exact e.config.valid f
  · next infos =>
    split at h
    · contradiction
    · next info hinfo =>
      obtain ⟨_, hformat, h⟩ := bind_eq_ok_iff.1 h
      rw [← Except.ok.inj h, ← Error.checkFormat_eq_ok_iff.1 hformat]
      exact hinfos infos rfl info (List.mem_of_getElem? hinfo)

/-! ## Only valid targets -/

variable {m : Type → Type} [Monad m] {c : Clamper m}

/-- The clamp has no effect on valid targets and gives the right value there. -/
def RightOnValid (c : Clamper m) (ctx : Context) : Prop :=
  ∀ {f : Format} {t : Target}, t.Valid f → ∀ (x : Binary f) (side : Side),
    c f x side t ctx = pure (x.clamp side t ctx)

theorem roundSideWith_eq {t : Target} (hc : RightOnValid c e.config.context) (ht : t.Valid f)
    (side : Side) (x : Binary f) :
    roundSideWith c e side t x = pure (e.roundSide side t x) := by
  unfold roundSideWith roundSide
  split
  · exact hc ht x side
  · rfl

variable [LawfulMonad m]

/-- An operation only clamps to valid targets. -/
theorem binaryOpWith_eq (hc : RightOnValid c e.config.context) (op : Operation)
    (x y : Binary f) (site : Option String) :
    binaryOpWith c e op x y site = pure (e.binaryOp op x y site) := by
  unfold binaryOpWith binaryOp
  cases htarget : e.operationTarget f site with
  | error err => rfl
  | ok target =>
    cases target with
    | none => rfl
    | some t =>
      have ht := valid_of_operationTarget htarget
      have hemulate : emulateWith c e t op x y = pure (e.emulate t op x y) := by
        unfold emulateWith emulate
        rw [roundSideWith_eq hc ht, pure_bind, roundSideWith_eq hc ht, pure_bind,
          roundSideWith_eq hc ht]
      dsimp only
      rw [hemulate, map_pure]
      rfl

theorem roundNumberWith_eq {t : Target} (hc : RightOnValid c e.config.context)
    (ht : t.Valid f) (place : Place) (index : Nat) (element : Option Nat) (x : Binary f) :
    roundNumberWith c e place t index element x =
      pure (e.roundNumber place t index element x) := by
  unfold roundNumberWith
  rw [hc ht, pure_bind]
  rfl

theorem roundElementsWith_eq {t : Target} (hc : RightOnValid c e.config.context)
    (ht : t.Valid f) (place : Place) (index k : Nat) (xs : List (Binary f)) :
    roundElementsWith c e place t index k xs =
      pure (xs.mapIdx fun i x => e.roundNumber place t index (some (k + i)) x) := by
  -- the position of the first element is general, as it grows along the array
  induction xs generalizing k with
  | nil => rfl
  | cons x xs ih =>
    unfold roundElementsWith
    rw [roundNumberWith_eq hc ht, pure_bind, ih, pure_bind, List.mapIdx_cons]
    simp only [Nat.add_zero, Nat.add_assoc, Nat.add_comm 1]

theorem roundArgumentWith_eq {t : Target} (hc : RightOnValid c e.config.context) (place : Place)
    (index : Nat) {a : Argument} (ht : t.Valid a.format) :
    roundArgumentWith c e place t index a = pure (e.roundArgument place t index a) := by
  cases a with
  | scalar f x =>
    have ht' : t.Valid f := ht
    rw [roundArgumentWith, roundNumberWith_eq hc ht', pure_bind]
    rfl
  | array f xs =>
    have ht' : t.Valid f := ht
    rw [roundArgumentWith, roundElementsWith_eq hc ht', pure_bind]
    simp only [Nat.zero_add]
    rfl

theorem roundFromWith_eq (hc : RightOnValid c e.config.context) (place : Place)
    {infos : Option (List ArgumentInfo)}
    (hinfos : ∀ l ∈ infos, ∀ info ∈ l, info.target.Valid info.dataType.format) (index : Nat)
    (arguments : List Argument) :
    roundFromWith c e place infos index arguments = pure (e.roundFrom place infos index arguments) := by
  induction arguments generalizing index with
  | nil => rfl
  | cons a rest ih =>
    unfold roundFromWith roundFrom
    cases htarget : e.argumentTarget place infos index a.format with
    | error err =>
      -- both stop here, and leave the rest as it is
      rfl
    | ok t =>
      dsimp only
      rw [roundArgumentWith_eq hc place index (valid_of_argumentTarget hinfos htarget), pure_bind,
        ih, pure_bind]

/-- The ends of a call only clamp to valid targets. -/
theorem roundArgumentsWith_eq (hc : RightOnValid c e.config.context) (place : Place)
    (arguments : List Argument) :
    roundArgumentsWith c e place arguments = pure (e.roundArguments place arguments) := by
  unfold roundArgumentsWith roundArguments
  split
  · cases hinfos : e.descriptors place with
    | error err => rfl
    | ok infos =>
      refine roundFromWith_eq hc place (fun l hl => ?_) 0 arguments
      obtain rfl := hl
      exact valid_of_descriptors hinfos
  · rfl

end VariablePrecision.Emulator
