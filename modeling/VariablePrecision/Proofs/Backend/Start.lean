/-
  VariablePrecision.Proofs.Backend.Start

  How the two backends start.

  Everything that a backend reads comes before the one file that it makes, so a start that
  fails leaves the files as they were, whatever it fails on.  An emulator that does start
  has valid options, and the registry that it was given or else the one that its input file
  described when it started.
-/

import Mathlib.Data.List.Basic
import VariablePrecision.Analysis.Basic
import VariablePrecision.Proofs.Emulator.Settings
import VariablePrecision.Proofs.Files.Failure
import VariablePrecision.Proofs.Profile.RoundTrip

namespace VariablePrecision

open FileAction

variable {files files' : Files}

/-! ## Profiles -/

/-- The file at a path holds some bytes. -/
def Files.Holds (files : Files) (path : String) (bytes : ByteArray) : Prop :=
  ∃ p, Path.ofText path = .ok p ∧ files.find p = .ok (.file bytes)

theorem Files.gives_ask_iff {α : Type} {path : String}
    {question : Files → Path → Except PathFault α} {a : α} :
    Gives (ask path question) files a files' ↔
      (∃ p, Path.ofText path = .ok p ∧ question files p = .ok a) ∧ files' = files := by
  rw [← bind_eq_ok_iff, ask, gives_bind_iff]
  constructor
  · rintro ⟨now, mid, hget, h⟩
    obtain ⟨hnow, rfl⟩ := Prod.mk.inj (show (Except.ok files, files) = (.ok now, mid) from hget)
    obtain rfl := Except.ok.inj hnow
    cases hanswer : Path.ofText path >>= question files with
    | error fault =>
      rw [hanswer] at h
      exact absurd h not_gives_throw
    | ok b =>
      rw [hanswer] at h
      obtain ⟨rfl, rfl⟩ := gives_pure_iff.1 h
      exact ⟨rfl, rfl⟩
  · rintro ⟨hanswer, rfl⟩
    refine ⟨files', files', rfl, ?_⟩
    rw [hanswer]
    exact gives_pure_iff.2 ⟨rfl, rfl⟩

theorem Profile.reads_load (path : String) : Reads (Profile.load path) := by
  refine reads_bind (Files.reads_entry path) fun entry => ?_
  split
  · exact reads_throw _
  · split
    · exact reads_pure _
    · exact reads_throw _

/-- Loading a profile succeeds with what the file describes, and only reads. -/
theorem Profile.gives_load_iff {path : String} {reg : Registry} :
    Gives (Profile.load path) files reg files' ↔
      (∃ bytes, files.Holds path bytes ∧ Profile.readBytes bytes = .ok reg) ∧ files' = files := by
  constructor
  · intro h
    refine ⟨?_, (Profile.reads_load path).eq_of_gives h⟩
    obtain ⟨entry, mid, hentry, h⟩ := gives_bind_iff.1 h
    obtain ⟨⟨p, hp, hfind⟩, rfl⟩ := Files.gives_ask_iff.1 hentry
    cases entry with
    | directory => exact absurd h not_gives_throw
    | file bytes =>
      dsimp only at h
      split at h
      · next reg' hread =>
        obtain ⟨rfl, -⟩ := gives_pure_iff.1 h
        exact ⟨bytes, ⟨p, hp, hfind⟩, hread⟩
      · exact absurd h not_gives_throw
  · rintro ⟨⟨bytes, hholds, hread⟩, rfl⟩
    refine gives_bind_iff.2 ⟨_, _, Files.gives_ask_iff.2 ⟨hholds, rfl⟩, ?_⟩
    dsimp only
    rw [hread]
    exact gives_pure_iff.2 ⟨rfl, rfl⟩

/-! ## Starting -/

namespace Emulator

/-- Reads the registry of an emulator, unless it is given. -/
def registryOf (config : Configuration) (registry : Option Registry) :
    FileAction (Option Registry) :=
  match registry, config.inputFile with
  | some reg, _ => pure (some reg)
  | none, some path => some <$> Profile.load path
  | none, none => pure none

/-- Makes the log of an emulator, if the options ask for it. -/
def logOf (config : Configuration) : FileAction (Option FileWriter) :=
  match config.logFile with
  | some path => some <$> FileWriter.create path
  | none => pure none

/-- The registry comes before the log, and nothing after it. -/
theorem ofConfiguration_eq (config : Configuration) (knowsStack : Bool)
    (registry : Option Registry) :
    ofConfiguration config knowsStack registry =
      registryOf config registry >>= fun registry => logOf config >>= fun log =>
        pure { config, registry, knowsStack, log } := by
  unfold ofConfiguration registryOf logOf
  cases registry <;> cases config.inputFile <;> cases config.logFile <;> rfl

theorem reads_registryOf (config : Configuration) (registry : Option Registry) :
    Reads (registryOf config registry) := by
  unfold registryOf
  split
  · exact reads_pure _
  · exact reads_map (Profile.reads_load _) _
  · exact reads_pure _

theorem careful_logOf (config : Configuration) : Careful (logOf config) := by
  unfold logOf
  split
  · exact careful_map (FileWriter.careful_create _) _
  · exact (reads_pure _).careful

/-- An emulator that does not start leaves no trace. -/
theorem careful_init (tokens : List String) (knowsStack : Bool) (registry : Option Registry) :
    Careful (init tokens knowsStack registry) := by
  unfold init
  split
  · next config _ =>
    rw [ofConfiguration_eq]
    refine careful_bind (reads_registryOf config registry) fun _ => ?_
    exact careful_bind_of_total (careful_logOf config) fun _ _ _ _ => not_fails_pure
  · exact (reads_throw _).careful

theorem exists_of_gives_init {tokens : List String} {knowsStack : Bool}
    {registry : Option Registry} {e : Emulator}
    (h : Gives (init tokens knowsStack registry) files e files') :
    Configuration.parse tokens = .ok e.config ∧
      Gives (registryOf e.config registry) files e.registry files := by
  unfold init at h
  split at h
  · next config hconfig =>
    rw [ofConfiguration_eq] at h
    obtain ⟨reg, mid, hreg, h⟩ := gives_bind_iff.1 h
    obtain ⟨log, mid', -, h⟩ := gives_bind_iff.1 h
    obtain ⟨rfl, -⟩ := gives_pure_iff.1 h
    obtain rfl := (reads_registryOf config registry).eq_of_gives hreg
    exact ⟨hconfig, hreg⟩
  · exact absurd h not_gives_throw

end Emulator

/-- An analysis that does not start leaves no trace. -/
theorem Analysis.careful_init (tokens : List String) (registry : Option Registry) :
    Careful (Analysis.init tokens registry) := by
  unfold Analysis.init
  split
  · exact (reads_throw _).careful
  · split
    · next options _ =>
      unfold Analysis.ofRegistry
      cases options.outputFile with
      | some path =>
        exact careful_bind_of_total (careful_map (FileWriter.careful_create path) _)
          fun _ _ _ _ => not_fails_pure
      | none => exact (reads_bind (reads_pure none) fun _ => reads_pure _).careful
    · exact (reads_throw _).careful

/-- A backend that does not start leaves the files as they were, whatever it fails on.  An emulator
    that starts has valid options and the registry that it was given; if none was given and an
    input file is named, that file held a profile, and the emulator has its registry. -/
theorem failed_init_leaves_files (tokens : List String) (registry : Option Registry)
    (files files' : Files) :
    (∀ knowsStack err, Fails (Emulator.init tokens knowsStack registry) files err files' →
      files' = files) ∧
    (∀ err, Fails (Analysis.init tokens registry) files err files' → files' = files) ∧
    ∀ knowsStack e, Gives (Emulator.init tokens knowsStack registry) files e files' →
      Configuration.parse tokens = .ok e.config ∧
      (∀ reg, registry = some reg → e.registry = some reg) ∧
      (registry = none → e.config.inputFile = none → e.registry = none) ∧
      ∀ path, registry = none → e.config.inputFile = some path →
        ∃ bytes reg, files.Holds path bytes ∧ Profile.readBytes bytes = .ok reg ∧
          e.registry = some reg := by
  refine ⟨fun knowsStack err => Emulator.careful_init tokens knowsStack registry files err files',
    fun err => Analysis.careful_init tokens registry files err files', fun knowsStack e h => ?_⟩
  obtain ⟨hconfig, hreg⟩ := Emulator.exists_of_gives_init h
  unfold Emulator.registryOf at hreg
  refine ⟨hconfig, ?_, ?_, ?_⟩
  · rintro reg rfl
    exact (gives_pure_iff.1 hreg).1.symm
  · rintro rfl hinput
    rw [hinput] at hreg
    exact (gives_pure_iff.1 hreg).1.symm
  · rintro path rfl hinput
    rw [hinput] at hreg
    obtain ⟨reg, hload, heq⟩ := gives_map_iff.1 hreg
    obtain ⟨⟨bytes, hholds, hread⟩, -⟩ := Profile.gives_load_iff.1 hload
    exact ⟨bytes, reg, hholds, hread, heq.symm⟩

/-- The registry without sites. -/
def noSites : Registry where
  records := []
  valid := by simp
  distinct := by simp

/-- A working directory with the profile of a program without sites. -/
def profileFiles : Files where
  entries := [(⟨["p"]⟩, (Profile.write noSites).toUTF8)]

/-- Tokens that name the profile as the input, and a log. -/
def loggingTokens (log : String) : List String :=
  ["vprec", "--prec-input-file=p", "--prec-log-file", log]

theorem ofText_of_short {path : String} (h : path = "p" ∨ path = ".") :
    Path.ofText path = .ok ⟨.here, [path], false⟩ := by
  -- the names are told from each other character by character
  have hnames : path.splitOn "/" = [path] := by
    rcases h with rfl | rfl
    all_goals
      rw [String.splitOn, if_neg (by decide), String.splitOnAux, if_neg (by decide),
        if_neg (by decide), String.splitOnAux, if_pos (by decide)]
      decide
  unfold Path.ofText
  simp only [hnames]
  rcases h with rfl | rfl <;> rfl

theorem exists_loggingConfiguration {log : String} (hlog : log ≠ "")
    (hdash : log.toList.head? ≠ some '-') :
    ∃ config, Configuration.parse (loggingTokens log) = .ok config ∧
      config.inputFile = some "p" ∧ config.logFile = some log := by
  have hinput : Options.Key.inputFile.Spells "p" (some "p") := ⟨by decide, rfl⟩
  have houtput : Options.Key.logFile.Spells log (some log) := ⟨hlog, rfl⟩
  let given : List Options.Given :=
    [⟨.inputFile, _, _, .attached hinput⟩,
     ⟨.logFile, _, _, .separate houtput fun h => absurd h hdash⟩]
  have hnodup : (given.map Options.Given.key).Nodup := by simp [given]
  have hparse := Options.parse_given "vprec" hnodup
  obtain ⟨config, hconfig, hsame⟩ := (Options.sound_of_parse hparse).ofOptions_eq_ok
  refine ⟨config, bind_eq_ok_iff.2 ⟨_, hparse, hconfig⟩, ?_, ?_⟩
  · rw [hsame]
    rfl
  · rw [hsame]
    rfl

theorem gives_registryOf_profileFiles {config : Configuration}
    (h : config.inputFile = some "p") :
    Gives (Emulator.registryOf config none) profileFiles (some noSites) profileFiles := by
  have hread : Profile.readBytes (Profile.write noSites).toUTF8 = .ok noSites := by
    have hrecords : Profile.records (Profile.write noSites).toUTF8 = .ok noSites.records :=
      (Profile.recovers_document noSites).run_render
    simp only [Profile.readBytes, hrecords, Registry.ofRecords_records]
  unfold Emulator.registryOf
  rw [h]
  exact gives_map_iff.2 ⟨noSites, Profile.gives_load_iff.2
    ⟨⟨_, ⟨_, ofText_of_short (.inl rfl), rfl⟩, hread⟩, rfl⟩, rfl⟩

/-- The working directory is in the way of a log. -/
theorem fails_init_directory :
    Fails (Emulator.init (loggingTokens ".") true none) profileFiles
      (.unusablePath "." .isDirectory) profileFiles := by
  obtain ⟨config, hconfig, hinput, hlog⟩ :=
    exists_loggingConfiguration (show "." ≠ "" by decide) (by decide)
  have hfails : Fails (Emulator.logOf config) profileFiles (.unusablePath "." .isDirectory)
      profileFiles := by
    unfold Emulator.logOf
    rw [hlog]
    refine fails_map_iff.2 (fails_map_iff.2 (fails_bind_iff.2 (.inl ?_)))
    unfold Fails Files.ask
    rw [ofText_of_short (.inr rfl)]
    rfl
  unfold Emulator.init
  rw [hconfig]
  dsimp only
  rw [Emulator.ofConfiguration_eq]
  exact fails_bind_iff.2
    (.inr ⟨_, _, gives_registryOf_profileFiles hinput, fails_bind_iff.2 (.inl hfails)⟩)

/-- The log may be made where the profile was, which is read before. -/
theorem exists_gives_init_profile :
    ∃ e files', Gives (Emulator.init (loggingTokens "p") true none) profileFiles e files' ∧
      e.config.inputFile = some "p" := by
  obtain ⟨config, hconfig, hinput, hlog⟩ :=
    exists_loggingConfiguration (show "p" ≠ "" by decide) (by decide)
  have hgives : Gives (Emulator.logOf config) profileFiles (some { location := ⟨["p"]⟩ })
      (profileFiles.put ⟨["p"]⟩ .empty) := by
    unfold Emulator.logOf
    rw [hlog]
    refine gives_map_iff.2 ⟨_, gives_map_iff.2 ⟨⟨["p"]⟩, ?_, rfl⟩, rfl⟩
    exact gives_bind_iff.2 ⟨⟨["p"]⟩, profileFiles,
      Files.gives_ask_iff.2 ⟨⟨_, ofText_of_short (.inl rfl), rfl⟩, rfl⟩, rfl⟩
  refine ⟨⟨config, some noSites, true, some { location := ⟨["p"]⟩ }⟩,
    profileFiles.put ⟨["p"]⟩ .empty, ?_, hinput⟩
  unfold Emulator.init
  rw [hconfig]
  dsimp only
  rw [Emulator.ofConfiguration_eq]
  exact gives_bind_iff.2 ⟨_, _, gives_registryOf_profileFiles hinput,
    gives_bind_iff.2 ⟨_, _, hgives, rfl⟩⟩

/-- A directory in the way of a log, an analysis without a registry, and a log in the place of the
    profile. -/
theorem failed_init_leaves_files_directory :
    (∃ err files', Fails (Emulator.init (loggingTokens ".") true none) profileFiles err files' ∧
      files' = profileFiles) ∧
    (∃ err files', Fails (Analysis.init ["analysis", "-o", "p"] none) profileFiles err files' ∧
      files' = profileFiles) ∧
    ∃ e files', Gives (Emulator.init (loggingTokens "p") true none) profileFiles e files' ∧
      ∃ bytes reg, profileFiles.Holds "p" bytes ∧ Profile.readBytes bytes = .ok reg ∧
        e.registry = some reg := by
  have hanalysis : Fails (Analysis.init ["analysis", "-o", "p"] none) profileFiles
      .missingRegistry profileFiles := rfl
  obtain ⟨e, files', hgives, hinput⟩ := exists_gives_init_profile
  refine ⟨⟨_, _, fails_init_directory, ?_⟩, ⟨_, _, hanalysis, ?_⟩, e, files', hgives, ?_⟩
  · exact (failed_init_leaves_files (loggingTokens ".") none profileFiles profileFiles).1 true _
      fails_init_directory
  · exact (failed_init_leaves_files ["analysis", "-o", "p"] none profileFiles
      profileFiles).2.1 _ hanalysis
  · obtain ⟨-, -, -, hread⟩ :=
      (failed_init_leaves_files (loggingTokens "p") none profileFiles files').2.2 true _ hgives
    exact hread "p" rfl hinput

end VariablePrecision
