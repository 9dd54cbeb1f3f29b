import HashBench.Driver.Benchmark
import HashBench.Tommyds.Hashlin

/-! The driver over the tommyds_lin shim, for keys that compare by equality. -/
namespace HashBench.Driver

open Tommyds

variable {K V : Type} (garbage : Nat → Chain K V) (bp : Blueprint K V)

/-- The calls of the tommyds_lin shim. -/
def tommydsLinShim : Shim K (TommyHashlin K V) (Iterator (TommyHashlin K V) K V) where
  createTable := TommydsLin.createTable
  insert := TommydsLin.insert garbage bp
  erase := TommydsLin.erase bp
  find table key := (table, TommydsLin.find bp table key)
  beginItr := TommydsLin.beginItr
  isItrValid _ := Iterator.isItrValid
  incrementItr _ := TommydsLin.incrementItr
  getKeyFromItr _ := Iterator.getKeyFromItr

/-- A run of the shim reaches the table, and leaves these keys present. -/
def TommydsLinStores (table : TommyHashlin K V) (stored : Set K) : Prop :=
  ∃ ops, table = TommydsLin.run garbage bp ops ∧ ∀ k, k ∈ stored ↔ bp.present ops k = true

variable {garbage bp}

/-- The tommyds_lin shim is a finite map. -/
theorem tommydsLin_isMap (hEq : ∀ k₁ k₂, bp.cmprKeys k₁ k₂ = true → k₁ = k₂) :
    (tommydsLinShim garbage bp).IsMap bp (TommydsLinStores garbage bp) where
  create := ⟨[], rfl, fun k => by simp⟩
  insert := by
    rintro _ stored key ⟨ops, rfl, hStored⟩
    refine Or.inl ⟨ops ++ [.insert key], ?_, fun k => ?_⟩
    · simp only [tommydsLinShim, TommydsLin.run, List.foldl_append]
      rfl
    · rw [bp.present_concat, Blueprint.apply, Bool.or_eq_true, ← hStored, Set.mem_insert_iff,
        Set.mem_sep_iff]
      constructor
      · rintro (rfl | ⟨hMem, _⟩)
        · exact Or.inl (bp.cmprKeys_refl k)
        · exact Or.inr hMem
      · rintro (hMatch | hMem)
        · exact Or.inl (hEq key k hMatch).symm
        · by_cases hMatch : bp.cmprKeys key k = true
          · exact Or.inl (hEq key k hMatch).symm
          · exact Or.inr ⟨hMem, Bool.eq_false_iff.mpr hMatch⟩
  erase := by
    rintro _ stored key ⟨ops, rfl, hStored⟩
    refine ⟨ops ++ [.erase key], ?_, fun k => ?_⟩
    · simp only [tommydsLinShim, TommydsLin.run, List.foldl_append]
      rfl
    · rw [bp.present_concat, Blueprint.apply, Bool.and_eq_true, ← hStored, Set.mem_sep_iff,
        Bool.not_eq_true', and_comm]
  find := by
    rintro _ stored key ⟨ops, rfl, hStored⟩
    obtain ⟨l, hInv⟩ := HashlinInv.run garbage bp ops
    refine ⟨⟨ops, rfl, hStored⟩, ?_⟩
    rcases hInv.find_spec key with ⟨hPresent, hResumes⟩ | ⟨hAbsent, hInvalid⟩
    · obtain ⟨hValid, hReads, _⟩ := hResumes
      obtain ⟨k, hRead, hMatch⟩ := hReads
      obtain rfl := hEq key k hMatch
      exact Or.inl ⟨key, (hStored key).mpr hPresent, hMatch, hValid, hRead⟩
    · refine Or.inr ⟨fun k hMem => Bool.eq_false_iff.mpr fun hMatch => ?_, hInvalid⟩
      obtain rfl := hEq key k hMatch
      rw [hStored, hAbsent] at hMem
      cases hMem

/-- The iterators of the tommyds_lin shim. -/
theorem tommydsLin_iterates (hEq : ∀ k₁ k₂, bp.cmprKeys k₁ k₂ = true → k₁ = k₂) :
    (tommydsLinShim garbage bp).Iterates bp (TommydsLinStores garbage bp) where
  begin := by
    rintro _ stored ⟨ops, rfl, hStored⟩
    obtain ⟨l, hInv⟩ := HashlinInv.run garbage bp ops
    refine ⟨_, hInv.chained.enumerates.1, fun k => ?_, ?_⟩
    · rw [hStored, hInv.chained.enumerates.2]
      constructor
      · exact fun hMem => ⟨k, hMem, bp.cmprKeys_refl k⟩
      · rintro ⟨k', hMem, hMatch⟩
        rwa [hEq k k' hMatch]
    · have hActive : 2 ^ l + (TommydsLin.run garbage bp ops).split =
          (TommydsLin.run garbage bp ops).lowMax + (TommydsLin.run garbage bp ops).split :=
        congrArg (· + (TommydsLin.run garbage bp ops).split) hInv.lowMax_eq.symm
      rw [← keysRead_eq, hActive]
      exact Iterator.visits_begin _
  find := by
    rintro _ stored key ⟨ops, rfl, hStored⟩ ⟨k, hMem, hMatch⟩
    obtain ⟨l, hInv⟩ := HashlinInv.run garbage bp ops
    obtain rfl := hEq key k hMatch
    rcases hInv.find_spec key with ⟨_, hResumes⟩ | ⟨hAbsent, _⟩
    · exact hResumes
    · rw [hStored, hAbsent] at hMem
      cases hMem

/-- A configuration with every benchmark enabled. -/
def Macros.all (keyCount keyCountMeasurementInterval runCount : Nat)
    (h : 0 < keyCount ∧ 0 < keyCountMeasurementInterval ∧
      keyCount % keyCountMeasurementInterval = 0) : Macros :=
  ⟨keyCount, keyCountMeasurementInterval, runCount, fun _ => true, h.1, h.2.1, h.2.2⟩

def Config.all (keyCount keyCountMeasurementInterval runCount : Nat)
    (h : 0 < keyCount ∧ 0 < keyCountMeasurementInterval ∧
      keyCount % keyCountMeasurementInterval = 0)
    (hRepresentable : (Macros.all keyCount keyCountMeasurementInterval runCount h).Representable) :
    Config :=
  ⟨.all keyCount keyCountMeasurementInterval runCount h, hRepresentable.1, hRepresentable.2⟩

/-- The generator that draws the lowest number each time. -/
def lowestDraw : Generator Unit :=
  ⟨fun g lo _ => (lo, g), fun _ _ _ h => ⟨Nat.le_refl _, h⟩⟩

/-- The driver over the tommyds_lin shim and numbers as keys. -/
def tommydsLinSetup (config : Config) : Setup Nat (TommyHashlin Nat Unit)
    (Iterator (TommyHashlin Nat Unit) Nat Unit) Unit where
  config := config
  shim := tommydsLinShim (fun _ => []) (Blueprint.ofEq (fun k => k) ())
  generator := lowestDraw
  keys := id

end HashBench.Driver
