/-
  VariablePrecision.Proofs.Emulator.Transparency

  An emulator whose target is the native format itself cannot be noticed.

  Seen from its own units the native format, taken as a target, is the native grid with
  the native overflow (`Target.nearest_native`).  A finite value is the one nearest to
  its own units, and clamping never looks into the other encodings, so under a relative
  error and without flushing `clamp_native` leaves every encoding as it is.

  The emulator only ever changes values by clamping them.  Operations follow at once;
  at the ends of calls each argument is followed through the list on its own, since the
  arguments around it may have other targets, or stop the rounding.
-/

import Mathlib.Data.List.Basic
import VariablePrecision.Emulator.Call
import VariablePrecision.Proofs.Binary.Clamp

namespace VariablePrecision

/-- Relative errors are bounded only, and nothing is flushed. -/
structure Context.Plain (ctx : Context) : Prop where
  relative : ctx.policy.mode = .relative
  daz : ctx.daz = false
  ftz : ctx.ftz = false

namespace Context.Plain

variable {ctx : Context}

theorem boundsAbsolute (h : ctx.Plain) : ctx.policy.boundsAbsolute = false := by
  rw [ErrorPolicy.boundsAbsolute, h.relative]

theorem flushes (h : ctx.Plain) (side : Side) : ctx.flushes side = false := by
  cases side with
  | operand => exact h.daz
  | result => exact h.ftz

end Context.Plain

/-- Clamping to the native format leaves every encoding as it is. -/
theorem Binary.clamp_native {f : Format} {ctx : Context} (hctx : ctx.Plain) (side : Side)
    (x : Binary f) : x.clamp side (.native f) ctx = x := by
  by_cases hx : x.isFinite
  · rw [clamp_eq_nearest (Target.native_valid f) hx hctx.boundsAbsolute (hctx.flushes side),
      Target.nearest_native Nat.one_pos, nearest_absUnits hx]
  · -- infinities and not-a-numbers pass through, whatever the target is
    exact clamp_of_special (.inl (by simpa using hx))

namespace Emulator

variable {e : Emulator} {f : Format}

/-! ## Operations -/

theorem roundSide_native (hctx : e.config.context.Plain) (side : Side) (x : Binary f) :
    e.roundSide side (.native f) x = x := by
  unfold roundSide
  split
  · exact Binary.clamp_native hctx side x
  · rfl

/-- An operation that is emulated in the native format is the native operation. -/
theorem emulate_native (hctx : e.config.context.Plain) (op : Operation) (x y : Binary f) :
    e.emulate (.native f) op x y = op.apply x y := by
  rw [emulate, roundSide_native hctx, roundSide_native hctx, roundSide_native hctx]

theorem binaryOp_native (hctx : e.config.context.Plain) {site : Option String}
    {target : Option Target} (htarget : e.operationTarget f site = .ok target)
    (hnative : ∀ t ∈ target, t = .native f) (op : Operation) (x y : Binary f) :
    e.binaryOp op x y site = .ok (op.apply x y) := by
  rw [binaryOp, htarget]
  cases target with
  | none => rfl
  | some t =>
    obtain rfl := hnative t rfl
    show Except.ok (e.emulate (.native f) op x y) = _
    rw [emulate_native hctx]

/-! ## Ends of calls -/

variable {place : Place} {infos : Option (List ArgumentInfo)}

/-- Each number of an array is rounded on its own. -/
theorem roundArgument_native (hctx : e.config.context.Plain) (place : Place) (index : Nat)
    (a : Argument) : (e.roundArgument place (.native a.format) index a).1 = a := by
  cases a with
  | scalar f x => exact congrArg (Argument.scalar f) (Binary.clamp_native hctx _ x)
  | array f xs =>
    refine congrArg (Argument.array f) ?_
    apply List.ext_getElem
    · simp
    · intro k _ hk
      simp only [List.getElem_map, List.getElem_mapIdx]
      exact Binary.clamp_native hctx _ xs[k]

/-- An argument is left alone unless it has another target, whatever happens to those around
    it. -/
theorem getElem?_roundFrom (hctx : e.config.context.Plain) {arguments : List Argument}
    {index i : Nat} {a : Argument} (ha : arguments[i]? = some a)
    (hnative : ∀ t, e.argumentTarget place infos (index + i) a.format = .ok t →
      t = .native a.format) :
    (e.roundFrom place infos index arguments).arguments[i]? = some a := by
  -- the recursion counts the arguments up from `index`, and the list from 0
  induction arguments generalizing index i with
  | nil => exact ha
  | cons b rest ih =>
    rw [roundFrom]
    cases htarget : e.argumentTarget place infos index b.format with
    | error err => exact ha
    | ok t =>
      cases i with
      | zero =>
        obtain rfl : b = a := Option.some.inj ha
        obtain rfl := hnative t htarget
        show some (e.roundArgument place (.native b.format) index b).1 = some b
        rw [roundArgument_native hctx]
      | succ i =>
        have hnext : index + 1 + i = index + (i + 1) := by omega
        exact ih ha (by rwa [hnext])

/-- The target of an argument at an end of a call, `none` if nothing describes a value of this
    format there. -/
def argumentTarget? (e : Emulator) (crossing : Crossing) (site : Option String) (index : Nat)
    (f : Format) : Option Target :=
  let place : Place := { crossing, depth := 0, site }
  match e.descriptors place with
  | .ok infos => (e.argumentTarget place infos index f).toOption
  | .error _ => none

/-- Descriptions and targets do not depend on the depth of the call. -/
theorem argumentTarget?_eq_some {place : Place} {index : Nat} {t : Target}
    (hinfos : e.descriptors place = .ok infos)
    (ht : e.argumentTarget place infos index f = .ok t) :
    e.argumentTarget? place.crossing place.site index f = some t := by
  obtain ⟨crossing, depth, site⟩ := place
  have hinfos' : e.descriptors ⟨crossing, 0, site⟩ = .ok infos := hinfos
  have ht' : e.argumentTarget ⟨crossing, 0, site⟩ infos index f = .ok t := ht
  rw [argumentTarget?]
  dsimp only
  rw [hinfos']
  dsimp only
  rw [ht']
  rfl

theorem getElem?_roundArguments (hctx : e.config.context.Plain) {arguments : List Argument}
    {i : Nat} {a : Argument} (ha : arguments[i]? = some a)
    (hnative : ∀ t ∈ e.argumentTarget? place.crossing place.site i a.format,
      t = .native a.format) :
    (e.roundArguments place arguments).arguments[i]? = some a := by
  unfold roundArguments
  split
  · cases hinfos : e.descriptors place with
    | error err => exact ha
    | ok infos =>
      apply getElem?_roundFrom hctx ha
      intro t ht
      rw [Nat.zero_add] at ht
      exact hnative t (argumentTarget?_eq_some hinfos ht)
  · exact ha

/-! ## Transparency -/

/-- With a relative error and without flushing, the native format as a target changes nothing, in
    every mode and coverage: an operation that has no other target gives its native result, and
    an argument that has no other target passes an end of a call as it came. -/
theorem native_unchanged (e : Emulator) (hmode : e.config.context.policy.mode = .relative)
    (hdaz : e.config.context.daz = false) (hftz : e.config.context.ftz = false) :
    (∀ (f : Format) (op : Operation) (x y : Binary f) (site : Option String)
        (target : Option Target), e.operationTarget f site = .ok target →
      (∀ t ∈ target, t = .native f) → e.binaryOp op x y site = .ok (op.apply x y)) ∧
    ∀ (crossing : Crossing) (stack : CallStack) (site : Option String)
        (arguments : List Argument) (files : Files) (i : Nat) (a : Argument),
      arguments[i]? = some a →
      (∀ t ∈ e.argumentTarget? crossing site i a.format, t = .native a.format) →
      ((e.cross crossing stack site arguments).run files).1.1.arguments[i]? = some a := by
  have hctx : e.config.context.Plain := ⟨hmode, hdaz, hftz⟩
  constructor
  · intro f op x y site target htarget hnative
    exact binaryOp_native hctx htarget hnative op x y
  · intro crossing stack site arguments files i a ha hnative
    -- what is written into the log does not change the outcome
    show (e.roundArguments _ arguments).arguments[i]? = some a
    exact getElem?_roundArguments hctx ha hnative

/-- A difference and a call with three arguments; all values but those of the array are to be
    held in the native format. -/
def mixedRegistry : Registry where
  records :=
    [{ id := "difference"
       kind := .operation
        { kind := .arithmetic .sub, dataType := .scalar .binary64
          target := .native .binary64 } },
     { id := "solve"
       kind := .call { callee := "solve" }
       inputs :=
        [{ name := "a", size := 1, dataType := .scalar .binary64, target := .native .binary64 },
         { name := "v", size := 2, dataType := .array .binary32, target := ⟨10, 5⟩ },
         { name := "b", size := 1, dataType := .scalar .binary64,
           target := .native .binary64 }] }]
  valid := by
    intro r hr
    rcases List.mem_pair.1 hr with rfl | rfl
    · rw [← Record.fault?_eq_none_iff]
      decide
    · rw [← Record.fault?_eq_none_iff]
      decide
  distinct := by decide

/-- The emulator of that registry, which would hold values that it does not describe with 10
    mantissa and 5 exponent bits. -/
def mixedEmulator : Emulator where
  config :=
    { targets := ⟨⟨10, 5⟩, ⟨10, 5⟩⟩
      mode := .full
      coverage := .all
      valid := Targets.half_valid }
  registry := some mixedRegistry
  knowsStack := true
  log := none

/-- A signalling not-a-number, a third twice, and the least positive value. -/
def mixedArguments : List Argument :=
  [.scalar .binary64 (.ofBits .binary64 0x7ff0000000000001),
   .array .binary32 [.ofBits .binary32 0x3eaaaaab, .ofBits .binary32 0xbeaaaaab],
   .scalar .binary64 (.ofBits .binary64 1)]

/-- A difference of subnormals, and the arguments before and behind an array that is rounded. -/
theorem native_unchanged_mixed :
    mixedEmulator.operationTarget .binary64 (some "difference") =
        .ok (some (.native .binary64)) ∧
      mixedEmulator.binaryOp .sub (.ofBits .binary64 7) (.ofBits .binary64 0x800000000000000a)
        (some "difference") = .ok (.ofBits .binary64 0x11) ∧
      ∀ i ∈ [0, 2],
        mixedEmulator.argumentTarget? .enter (some "solve") i .binary64 =
          some (.native .binary64) ∧
        ((mixedEmulator.cross .enter .empty (some "solve") mixedArguments).run
          {}).1.1.arguments[i]? = mixedArguments[i]? := by
  obtain ⟨hoperation, hargument⟩ := native_unchanged mixedEmulator rfl rfl rfl
  have htarget : mixedEmulator.operationTarget .binary64 (some "difference") =
      .ok (some (.native .binary64)) := by decide +kernel
  refine ⟨htarget, ?_, ?_⟩
  · rw [hoperation .binary64 .sub _ _ (some "difference") _ htarget (by simp)]
    decide +kernel
  · intro i hi
    rcases List.mem_pair.1 hi with rfl | rfl
    · exact ⟨by decide +kernel, hargument .enter .empty (some "solve") mixedArguments {} 0 _ rfl
        (by decide +kernel)⟩
    · exact ⟨by decide +kernel, hargument .enter .empty (some "solve") mixedArguments {} 2 _ rfl
        (by decide +kernel)⟩

end Emulator

end VariablePrecision
