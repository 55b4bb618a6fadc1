import Neri.Abi.EffectSet

/-!
# Runtime features

The features of the ABI catalog that a program can require of the runtime (`compiler/abi/features.hk`)
and the features that the name of a runtime symbol implies (`compiler/abi/runtime_requirements.hk`,
`compiler/abi/runtime_symbols.hk`). A set of features is the integer of its bits, as in the source.
-/

namespace Neri.Abi

/-- The features, in the order of their bits. -/
inductive RuntimeFeature where
  | preciseGc
  | nonmovingGc
  | scopedBorrows
  | nativeMemory
  | rootFrames
  | sourceLocations
  | nativeStrings
  | consoleIo
  | inlineAggregates
  | extendedScalars
  | multipleMutators
  | bootstrapHost
  | sockets
  | interactiveIo
  | scopedTasks
  | files
  | interrupts
  | wallClock
  | crypto
  | rootedFiles
  | process
  | directory
  | socketCloseResult
  | sessionModules
  | drain
  | optionalConsoleRead
  | processIo
  | filesystemMutation
  | socketEndpoints
  | sequentialArrays
  | isolatedWorkers
  | multiplexedIo
  deriving DecidableEq, Repr

/-- The place of the bit of a feature. -/
def RuntimeFeature.index (feature : RuntimeFeature) : Nat := feature.ctorIdx

/-- The bits of a set of features. -/
abbrev RuntimeFeatures := Nat

namespace RuntimeFeatures

def has (features : RuntimeFeatures) (feature : RuntimeFeature) : Bool :=
  hasBit features (2 ^ feature.index)

/-- `with`. -/
def withFeature (features : RuntimeFeatures) (feature : RuntimeFeature) : RuntimeFeatures :=
  if has features feature then features else features + 2 ^ feature.index

/-- `mergedWith`: the loop over the 32 bits adds the ones of `other` that `features` misses. -/
def mergedWith (features other : RuntimeFeatures) : RuntimeFeatures :=
  (List.range 32).foldl (fun value place =>
    if hasBit other (2 ^ place) && !hasBit features (2 ^ place) then value + 2 ^ place else value)
    features

end RuntimeFeatures

/-! ## The features of symbols -/

/-- The two ways in which the catalog names symbols. -/
inductive SymbolPattern where
  | startsWith (text : String)
  | equals (text : String)

/-- `matches…`. -/
def SymbolPattern.matchesName (linkName : String) : SymbolPattern → Bool
  | startsWith text => text.toList.isPrefixOf linkName.toList
  | equals text => linkName == text

/-- The symbols that require a feature, in the order of the checks. -/
def symbolFeatures : List (SymbolPattern × RuntimeFeature) :=
  [(.startsWith "neri_rt_v1_file_", .files),
   (.startsWith "neri_rt_v1_interrupt_", .interrupts),
   (.startsWith "neri_rt_v1_clock_wall_", .wallClock),
   (.startsWith "neri_rt_v1_crypto_", .crypto),
   (.startsWith "neri_rt_v1_file_root_", .rootedFiles),
   (.startsWith "neri_rt_v1_process_", .process),
   (.equals "neri_rt_v1_process_spawn_input", .processIo),
   (.equals "neri_rt_v1_process_interrupt", .processIo),
   (.startsWith "neri_rt_v1_file_mutation_", .filesystemMutation),
   (.equals "neri_rt_v1_net_connect_timeout", .socketEndpoints),
   (.equals "neri_rt_v1_net_local_port", .socketEndpoints),
   (.equals "neri_rt_v1_net_poll_many", .multiplexedIo),
   (.equals "neri_rt_v1_worker_pool_readiness", .multiplexedIo),
   (.startsWith "neri_rt_v1_file_directory_", .directory),
   (.equals "neri_rt_v1_net_close_result", .socketCloseResult),
   (.startsWith "neri_rt_v1_drain_", .drain),
   (.startsWith "neri_rt_v1_session_", .sessionModules),
   (.equals "neri_rt_v1_stdin_read_line_optional", .optionalConsoleRead),
   (.equals "neri_rt_v1_host_canonical_path", .bootstrapHost),
   (.equals "neri_rt_v1_host_executable_path", .bootstrapHost),
   (.equals "neri_rt_v1_cache_metadata", .crypto),
   (.startsWith "neri_rt_v1_terminal_", .interactiveIo),
   (.startsWith "neri_rt_v1_clock_", .interactiveIo),
   (.startsWith "neri_rt_v1_net_", .sockets),
   (.startsWith "neri_rt_v1_worker_", .isolatedWorkers)]

def abiRuntimeSymbolFeatures (linkName : String) : RuntimeFeatures :=
  symbolFeatures.foldl (fun result entry =>
    if entry.1.matchesName linkName then RuntimeFeatures.withFeature result entry.2 else result) 0

/-! ## The bits of a merged set -/

theorem hasBit_two_pow (value place : Nat) : hasBit value (2 ^ place) = value.testBit place := by
  rw [Bool.eq_iff_iff, Nat.testBit_eq_decide_div_mod_eq, hasBit, beq_iff_eq, decide_eq_true_iff]
  omega

theorem testBit_mergedWith (features other : RuntimeFeatures) (i : Nat) :
    (RuntimeFeatures.mergedWith features other).testBit i =
      (features.testBit i || (decide (i < 32) && other.testBit i)) := by
  simp only [RuntimeFeatures.mergedWith, hasBit_two_pow]
  rw [BitFold.testBit_foldl_add (by simpa using List.nodup_range) fun place _ hadd => by simp_all]
  have hany : ((List.range 32).any fun place =>
      (other.testBit place && !features.testBit place) && decide (i = place)) =
      (decide (i < 32) && (other.testBit i && !features.testBit i)) := by
    rw [Bool.eq_iff_iff, List.any_eq_true]
    simp
  rw [hany]
  cases features.testBit i <;> simp

namespace RuntimeFeatures

theorem has_eq_testBit (features : RuntimeFeatures) (feature : RuntimeFeature) :
    has features feature = features.testBit feature.index := hasBit_two_pow _ _

@[simp]
theorem has_zero (feature : RuntimeFeature) : has 0 feature = false := by
  rw [has_eq_testBit, Nat.zero_testBit]

@[simp]
theorem has_mergedWith (features other : RuntimeFeatures) (feature : RuntimeFeature) :
    has (mergedWith features other) feature = (has features feature || has other feature) := by
  have hindex : feature.index < 32 := by cases feature <;> decide
  rw [has_eq_testBit, testBit_mergedWith, has_eq_testBit, has_eq_testBit, decide_eq_true hindex,
    Bool.true_and]

end RuntimeFeatures

end Neri.Abi
