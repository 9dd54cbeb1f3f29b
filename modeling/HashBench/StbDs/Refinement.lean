import HashBench.StbDs.Lookup

/-! The stb_ds table as a finite map. Each pair of the dense array is referred
to by exactly one slot of the index, which its own probe meets before any
empty slot, and the pairs are exactly the present keys. -/
namespace HashBench.StbDs

open Search OpenAddressing Iteration

variable {K V β : Type*}

/-- The comparison and the hash of the table under a given seed. -/
def KeyAccess.blueprint [DecidableEq β] (keys : KeyAccess K β) (value : V) (seed : Nat) :
    Blueprint K V where
  hashKey k := keys.hash (keys.content k) seed
  cmprKeys k₁ k₂ := decide (keys.content k₁ = keys.content k₂)
  valueType := value
  cmprKeys_refl _ := decide_eq_true rfl
  cmprKeys_symm h := decide_eq_true (of_decide_eq_true h).symm
  cmprKeys_trans h h' := decide_eq_true ((of_decide_eq_true h).trans (of_decide_eq_true h'))
  hashKey_congr h := congrArg (keys.hash · seed) (of_decide_eq_true h)

/-- The keys that these calls leave in the table. -/
def present [DecidableEq β] (keys : KeyAccess K β) (calls : List (Call K)) : K → Bool :=
  (keys.blueprint () 0).present (calls.filterMap Call.op?)

variable {keys : KeyAccess K β}

/-- The invariant of a table that is not null. -/
structure TableOk (keys : KeyAccess K β) (a : DenseArray K V) (present : K → Bool) : Prop where
  length_pos : 0 < a.length
  index_ok : ∀ {table}, a.hashTable = some table →
    IndexOk table (refs keys table.seed a.data (a.length - 1))
  unindexed : a.hashTable = none → a.length = 1
  distinct : ∀ {i j}, i < a.length - 1 → j < a.length - 1 →
    keys.content (a.data i).key = keys.content (a.data j).key → i = j
  present_iff : ∀ key, present key = true ↔
    ∃ i < a.length - 1, keys.content key = keys.content (a.data i).key

/-- The invariant: a null table holds no key. -/
def TableInv (keys : KeyAccess K β) (t : Table K V) (present : K → Bool) : Prop :=
  match t with
  | none => ∀ key, present key = false
  | some a => TableOk keys a present

/-- The pairs of a table. -/
def pairs : Table K V → Multiset (Element K V)
  | none => 0
  | some a => (Multiset.range (a.length - 1)).map a.data

namespace TableOk

variable {a : DenseArray K V} {present : K → Bool}

theorem newArray (fresh : Nat → Element K V) (h : ∀ key, present key = false) :
    TableOk keys (newArray fresh) present where
  length_pos := Nat.one_pos
  index_ok := fun hNone => by cases hNone
  unindexed := fun _ => rfl
  distinct := fun hi => absurd hi (Nat.not_lt_zero _)
  present_iff := fun key => by
    rw [h key]
    refine iff_of_false Bool.false_ne_true ?_
    rintro ⟨i, hi, _⟩
    exact absurd hi (Nat.not_lt_zero i)

/-- Only the length, the data and the index matter. -/
theorem setTemp (h : TableOk keys a present) (temp : Int) :
    TableOk keys { a with temp := temp } present :=
  ⟨h.length_pos, h.index_ok, h.unindexed, h.distinct, h.present_iff⟩

/-- The probed index of an insertion refers to the same pairs. -/
theorem indexForPut (h : TableOk keys a present) {hashSeed fuel : Nat} {table : HashIndex}
    (hIndex : indexForPut hashSeed fuel a = some table) :
    IndexOk table (refs keys table.seed a.data (a.length - 1)) := by
  unfold StbDs.indexForPut at hIndex
  cases hTable : a.hashTable with
  | none =>
      rw [hTable] at hIndex
      obtain rfl : newHashIndex bucketLength hashSeed = table := Option.some.inj hIndex
      rw [h.unindexed hTable]
      exact IndexOk.new (k := 0) rfl hashSeed
  | some old =>
      rw [hTable] at hIndex
      have hOld := h.index_ok hTable
      dsimp only at hIndex
      split at hIndex
      · obtain ⟨k, hSize⟩ := hOld.size
        obtain ⟨hNew, _, hSeed, _⟩ := hOld.make (k := k + 1) (by rw [hSize]; ring) hIndex
        rw [hSeed]
        exact hNew
      · obtain rfl := Option.some.inj hIndex
        exact hOld

variable [DecidableEq β]

/-- An insertion either meets the pair of its key, or claims a slot for a key
that no pair has. -/
theorem put_returned (h : TableOk keys a present) {fresh : Nat → Element K V}
    {hashSeed fuel : Nat} {key : K} {a' : DenseArray K V}
    (hPut : stbdsHmputKey keys fresh hashSeed fuel (some a) key = some a') :
    ∃ table, StbDs.indexForPut hashSeed fuel a = some table ∧
      ((∃ i < a.length - 1, keys.content key = keys.content (a.data i).key ∧
          a' = { a with hashTable := some table, temp := (i : Int) }) ∨
        ((∀ i < a.length - 1, keys.content key ≠ keys.content (a.data i).key) ∧
          ∃ j, (∀ i < j, table.storage (keySeq keys table key i) ≠ .empty) ∧
            table.storage (keySeq keys table key j) = .empty ∧
            a' =
              { data := Function.update a.data (a.length - 1)
                  { a.data (a.length - 1) with key := key }
                length := a.length + 1
                hashTable := some (claimSlot table
                  ⟨hashFor keys table.seed key, a.length - 1⟩ (keySeq keys table key j)
                  (trail (noteFirst (isTombstone keys table key)) (keySeq keys table key) j none))
                temp := (a.length : Int) - 1 })) := by
  simp only [stbdsHmputKey, Option.getD_some, Option.bind_eq_some_iff,
    Option.map_eq_some_iff] at hPut
  obtain ⟨table, hIndex, ⟨slot, tombstone⟩, hProbe, hEq⟩ := hPut
  have hOk := h.indexForPut hIndex
  refine ⟨table, hIndex, ?_⟩
  obtain ⟨j, rfl, hBefore, rfl, ⟨ref, hRef, hSlot, hHash, hContent⟩ | ⟨hSlot, hMiss⟩⟩ :=
    probe_returned hOk faithful_refs hProbe
  · refine Or.inl ⟨ref.index, (mem_refs.mp hRef).1, hContent, ?_⟩
    rw [← hEq, hSlot, if_pos (slotHash_live_eq_iff.mpr hHash)]
    rfl
  · refine Or.inr ⟨fun i hi => hMiss (refAt keys table.seed a.data i) (mem_refs.mpr ⟨hi, rfl⟩),
      j, hBefore, hSlot, ?_⟩
    have hNe : slotHash .empty ≠ hashFor keys table.seed key := by
      have hHash := (hashFor keys table.seed key).2
      simp only [slotHash]
      omega
    rw [← hEq, hSlot, if_neg hNe]

/-- Rewriting the pair of a present key, under an equal key. -/
theorem rewrite (h : TableOk keys a present) {key : K} {i : Nat} {element : Element K V}
    {temp : Int} {table : HashIndex} (hi : i < a.length - 1)
    (hIndex : IndexOk table (refs keys table.seed a.data (a.length - 1)))
    (hContent : keys.content key = keys.content (a.data i).key)
    (hElement : keys.content element.key = keys.content key) :
    TableOk keys
      { a with hashTable := some table, data := Function.update a.data i element, temp := temp }
      ((keys.blueprint () 0).apply present (.insert key)) := by
  have hSame (j : Nat) : keys.content (Function.update a.data i element j).key =
      keys.content (a.data j).key := by
    by_cases hj : j = i
    · rw [hj, Function.update_self, hElement, hContent]
    · rw [Function.update_of_ne hj]
  refine ⟨h.length_pos, fun hTable => ?_, fun hNone => (by cases hNone), fun hi hj hEq => ?_,
    fun k => ?_⟩
  · obtain rfl := Option.some.inj hTable
    rw [refs_congr fun j _ => hSame j]
    exact hIndex
  · simp only [hSame] at hEq
    exact h.distinct hi hj hEq
  · simp only [Blueprint.apply, KeyAccess.blueprint, Bool.or_eq_true, decide_eq_true_eq,
      h.present_iff, hSame]
    refine ⟨fun hOr => hOr.elim (fun hEq => ⟨i, hi, hEq ▸ hContent⟩) id, Or.inr⟩

/-- Pushing a pair for an absent key. -/
theorem push (h : TableOk keys a present) {key : K} {data : Nat → Element K V} {temp : Int}
    {table : HashIndex}
    (hAbsent : ∀ i < a.length - 1, keys.content key ≠ keys.content (a.data i).key)
    (hIndex : IndexOk table
      (⟨hashFor keys table.seed key, a.length - 1⟩ ::ₘ refs keys table.seed a.data (a.length - 1)))
    (hSame : ∀ i < a.length - 1, data i = a.data i)
    (hNew : keys.content (data (a.length - 1)).key = keys.content key) :
    TableOk keys
      { data := data, length := a.length + 1, hashTable := some table, temp := temp }
      ((keys.blueprint () 0).apply present (.insert key)) := by
  have hLength : a.length + 1 - 1 = (a.length - 1) + 1 := by
    have hPos := h.length_pos
    omega
  refine ⟨Nat.succ_pos _, fun hTable => ?_, fun hNone => (by cases hNone), fun {i j} hi hj hEq => ?_,
    fun k => ?_⟩
  · obtain rfl := Option.some.inj hTable
    rw [hLength, refs_succ hSame, refAt, hashFor_congr hNew]
    exact hIndex
  · simp only [hLength, Nat.lt_succ_iff_lt_or_eq] at hi hj
    dsimp only at hEq
    rcases hi with hi | rfl <;> rcases hj with hj | rfl
    · rw [hSame i hi, hSame j hj] at hEq
      exact h.distinct hi hj hEq
    · rw [hSame i hi, hNew] at hEq
      exact absurd hEq.symm (hAbsent i hi)
    · rw [hSame j hj, hNew] at hEq
      exact absurd hEq (hAbsent j hj)
    · rfl
  · simp only [Blueprint.apply, KeyAccess.blueprint, Bool.or_eq_true, decide_eq_true_eq,
      h.present_iff, hLength, Nat.lt_succ_iff_lt_or_eq]
    constructor
    · rintro (hEq | ⟨i, hi, hEq⟩)
      · exact ⟨a.length - 1, Or.inr rfl, by rw [hNew, hEq]⟩
      · exact ⟨i, Or.inl hi, by rw [hSame i hi, hEq]⟩
    · rintro ⟨i, hi | rfl, hEq⟩
      · exact Or.inr ⟨i, hi, by rw [hEq, hSame i hi]⟩
      · exact Or.inl (by rw [hEq, hNew])

omit [DecidableEq β] in
theorem content_putElement {value : V} {key : K} {old : Element K V}
    (h : keys.content old.key = keys.content key) :
    keys.content (putElement keys value key old).key = keys.content key := by
  unfold putElement
  cases keys.mode with
  | binary => rfl
  | string => exact h

theorem insert (h : TableOk keys a present) {value : V} {fresh : Nat → Element K V}
    {hashSeed fuel : Nat} {key : K} {t' : Table K V}
    (hInsert : StbDsHmSh.insert keys value fresh hashSeed fuel (some a) key = some t') :
    TableInv keys t' ((keys.blueprint () 0).apply present (.insert key)) := by
  simp only [StbDsHmSh.insert, Option.map_eq_some_iff] at hInsert
  obtain ⟨a', hPut, rfl⟩ := hInsert
  obtain ⟨table, hIndex, ⟨i, hi, hContent, rfl⟩ | ⟨hAbsent, j, hBefore, hEmpty, rfl⟩⟩ :=
    h.put_returned hPut
  · exact h.rewrite hi (h.indexForPut hIndex) hContent (content_putElement hContent.symm)
  · have hLast : ((a.length : Int) - 1).toNat = a.length - 1 := by omega
    have hSeed (ref : Ref) (slot : Nat) (tombstone : Option Nat) :
        (claimSlot table ref slot tombstone).seed = table.seed := by
      cases tombstone <;> rfl
    refine h.push hAbsent ?_ (fun i hi => ?_) ?_
    · rw [hSeed]
      exact (h.indexForPut hIndex).claim _ hBefore hEmpty rfl
    · rw [hLast, Function.update_of_ne (Nat.ne_of_lt hi)]
      exact Function.update_of_ne (Nat.ne_of_lt hi) ..
    · rw [hLast, Function.update_self]
      refine content_putElement ?_
      dsimp only
      rw [Function.update_self]

/-- The search for the key of the last pair finds its slot, once the pair is in
the hole and no reference to the erased one is left. -/
theorem findSlot_last (h : TableOk keys a present) {m i : Nat} (hLength : a.length - 1 = m + 1)
    (hNe : i ≠ m) {table : HashIndex} {rest : Multiset Ref}
    (hIndex : IndexOk table (refAt keys table.seed a.data m ::ₘ rest))
    (hRest : ∀ ref ∈ rest, ∃ j < m, j ≠ i ∧ ref = refAt keys table.seed a.data j) {fuel : Nat}
    {slot : Int} (hFind : stbdsHmFindSlot keys fuel (Function.update a.data i (a.data m)) table
      (a.data m).key = some slot) :
    ∃ p : Nat, slot = p ∧ p < table.slotCount ∧
      table.storage p = .live (refAt keys table.seed a.data m) := by
  have hOther {j : Nat} (hj : j ≠ i) : Function.update a.data i (a.data m) j = a.data j :=
    Function.update_of_ne hj ..
  -- every reference but the erased one still refers to its own key
  have hMem : ∀ ref ∈ refAt keys table.seed a.data m ::ₘ rest,
      ∃ j < m + 1, j ≠ i ∧ ref = refAt keys table.seed a.data j := by
    intro ref hRef
    rcases Multiset.mem_cons.mp hRef with rfl | hIn
    · exact ⟨m, Nat.lt_succ_self m, Ne.symm hNe, rfl⟩
    · obtain ⟨j, hj, hji, rfl⟩ := hRest ref hIn
      exact ⟨j, Nat.lt_succ_of_lt hj, hji, rfl⟩
  have hFaithful : Faithful keys table.seed (Function.update a.data i (a.data m))
      (refAt keys table.seed a.data m ::ₘ rest) := by
    intro ref hRef
    obtain ⟨j, _, hji, rfl⟩ := hMem ref hRef
    show hashFor keys table.seed (a.data j).key =
      hashFor keys table.seed (Function.update a.data i (a.data m) j).key
    rw [hOther hji]
  rcases findSlot_returned hIndex hFaithful hFind with
    ⟨p, ref, rfl, hp, hRef, hSlot, hContent⟩ | ⟨_, hMiss⟩
  · obtain ⟨j, hj, hji, rfl⟩ := hMem ref hRef
    obtain rfl : m = j := by
      refine h.distinct (by omega) (by omega) (hContent.trans ?_)
      show keys.content (Function.update a.data i (a.data m) j).key = _
      rw [hOther hji]
    exact ⟨p, rfl, hp, hSlot⟩
  · refine absurd ?_ (hMiss _ (Multiset.mem_cons_self _ _))
    show _ = keys.content (Function.update a.data i (a.data m) m).key
    rw [hOther (Ne.symm hNe)]

/-- Filling the hole leaves one reference for each remaining pair. -/
theorem fillHole_returned (h : TableOk keys a present) {m i : Nat} (hLength : a.length - 1 = m + 1)
    (hi : i < m + 1) {table table' : HashIndex} {stored : Multiset Ref}
    (hIndex : IndexOk table stored)
    (hStored : refAt keys table.seed a.data i ::ₘ stored = refs keys table.seed a.data (m + 1))
    {fuel : Nat} {data : Nat → Element K V}
    (hFill : fillHole keys fuel a.data table i m = some (data, table')) :
    IndexOk table' (refs keys table'.seed data m) ∧
      data = Function.update a.data i (a.data m) ∧
      table'.usedCount = table.usedCount ∧ table'.tombstoneCount = table.tombstoneCount ∧
      table'.slotCount = table.slotCount := by
  unfold fillHole at hFill
  split at hFill
  · rename_i hNe
    simp only [Option.map_eq_some_iff] at hFill
    obtain ⟨slot, hFind, hEq⟩ := hFill
    obtain ⟨rfl, rfl⟩ := Prod.mk.inj hEq
    obtain ⟨rest, hAll, hKept, hRest⟩ := map_range_swap (refAt keys table.seed a.data)
      (refAt keys table.seed (Function.update a.data i (a.data m))) (show i < m by omega)
      (fun j _ hj => by rw [refAt, refAt, Function.update_of_ne hj])
    obtain rfl : stored = refAt keys table.seed a.data m ::ₘ rest :=
      (Multiset.cons_inj_right _).mp (hStored.trans hAll)
    rw [Function.update_self] at hFind
    obtain ⟨p, rfl, hp, hSlot⟩ := h.findSlot_last hLength hNe hIndex hRest hFind
    have hFields : (redirectSlot table p i).seed = table.seed ∧
        (redirectSlot table p i).usedCount = table.usedCount ∧
        (redirectSlot table p i).tombstoneCount = table.tombstoneCount ∧
        (redirectSlot table p i).slotCount = table.slotCount := by
      rw [redirectSlot, hSlot]
      exact ⟨rfl, rfl, rfl, rfl⟩
    refine ⟨?_, rfl, hFields.2⟩
    rw [Int.toNat_natCast, hFields.1, refs, hKept, refAt, Function.update_self]
    exact hIndex.redirect hp hSlot i
  · rename_i hEq
    obtain rfl : i = m := not_not.mp hEq
    obtain ⟨rfl, rfl⟩ := Prod.mk.inj (Option.some.inj hFill)
    have hLast : refs keys table.seed a.data (i + 1) =
        refAt keys table.seed a.data i ::ₘ refs keys table.seed a.data i := refs_succ fun _ _ => rfl
    rw [hLast] at hStored
    obtain rfl := (Multiset.cons_inj_right _).mp hStored
    exact ⟨hIndex, (Function.update_eq_self i a.data).symm, rfl, rfl, rfl⟩

/-- The last pair moved into the place of the erased one. -/
theorem swapRemove (h : TableOk keys a present) {key : K} {m i : Nat}
    (hLength : a.length - 1 = m + 1) (hi : i < m + 1)
    (hContent : keys.content key = keys.content (a.data i).key) {table : HashIndex} {temp : Int}
    (hIndex : IndexOk table
      (refs keys table.seed (Function.update a.data i (a.data m)) m)) :
    TableOk keys
      { data := Function.update a.data i (a.data m), length := a.length - 1,
        hashTable := some table, temp := temp }
      ((keys.blueprint () 0).apply present (.erase key)) := by
  -- where the pair at `j` came from
  have hFrom (j : Nat) (hj : j < m) : ∃ j' < m + 1, j' ≠ i ∧ (j = i ∧ j' = m ∨ j = j') ∧
      Function.update a.data i (a.data m) j = a.data j' := by
    by_cases hji : j = i
    · subst hji
      exact ⟨m, Nat.lt_succ_self m, by omega, Or.inl ⟨rfl, rfl⟩, Function.update_self ..⟩
    · exact ⟨j, Nat.lt_succ_of_lt hj, hji, Or.inr rfl, Function.update_of_ne hji ..⟩
  have hNow : a.length - 1 - 1 = m := by omega
  have hPos : 0 < a.length - 1 := by omega
  refine ⟨hPos, fun hTable => ?_, fun hNone => (by cases hNone), fun {j l} hj hl hEq => ?_,
    fun k => ?_⟩
  · obtain rfl := Option.some.inj hTable
    dsimp only
    rw [hNow]
    exact hIndex
  · dsimp only at hj hl hEq
    obtain ⟨j', hj', _, hjFrom, hjData⟩ := hFrom j (by omega)
    obtain ⟨l', hl', _, hlFrom, hlData⟩ := hFrom l (by omega)
    rw [hjData, hlData] at hEq
    have hSame := h.distinct (by omega) (by omega) hEq
    omega
  · simp only [Blueprint.apply, KeyAccess.blueprint, Bool.and_eq_true, Bool.not_eq_true',
      decide_eq_false_iff_not, h.present_iff, hLength]
    constructor
    · rintro ⟨hNe, j, hj, hEq⟩
      have hji : j ≠ i := fun hji => hNe (by rw [hContent, hEq, hji])
      by_cases hLast : j = m
      · exact ⟨i, by omega, by rw [Function.update_self, hEq, hLast]⟩
      · exact ⟨j, by omega, by rw [Function.update_of_ne hji, hEq]⟩
    · rintro ⟨j, hj, hEq⟩
      obtain ⟨j', hj', hj'i, _, hData⟩ := hFrom j hj
      rw [hData] at hEq
      refine ⟨fun hSame => hj'i ?_, j', hj', hEq⟩
      refine h.distinct (by omega) (by omega) ?_
      rw [← hEq, ← hSame, hContent]

omit [DecidableEq β] in
theorem indexAfterDel_returned {table table' : HashIndex} {stored : Multiset Ref}
    (h : IndexOk table stored) {hashSeed fuel : Nat}
    (hIndex : indexAfterDel hashSeed fuel table = some table') :
    IndexOk table' stored ∧ table'.seed = table.seed := by
  unfold indexAfterDel at hIndex
  obtain ⟨k, hSize⟩ := h.size
  split at hIndex
  · rename_i hShrink
    obtain ⟨_, hHalf⟩ := h.half hShrink.2
    obtain ⟨hNew, _, hSeed, _⟩ := h.make hHalf hIndex
    exact ⟨hNew, hSeed⟩
  · split at hIndex
    · obtain ⟨hNew, _, hSeed, _⟩ := h.make hSize hIndex
      exact ⟨hNew, hSeed⟩
    · obtain rfl := Option.some.inj hIndex
      exact ⟨h, rfl⟩

omit [DecidableEq β] in
/-- The slot of a pair is buried, which leaves the references to the others. -/
theorem bury (h : TableOk keys a present) {table : HashIndex} (hTable : a.hashTable = some table)
    {p : Nat} {ref : Ref} (hp : p < table.slotCount)
    (hRef : ref ∈ refs keys table.seed a.data (a.length - 1))
    (hSlot : table.storage p = .live ref) :
    ∃ m stored, a.length - 1 = m + 1 ∧ ref.index < m + 1 ∧ table.usedCount = m + 1 ∧
      IndexOk (burySlot table p) stored ∧
      refAt keys (burySlot table p).seed a.data ref.index ::ₘ stored =
        refs keys (burySlot table p).seed a.data (m + 1) := by
  obtain ⟨hi, hRefEq⟩ := mem_refs.mp hRef
  obtain ⟨m, hLength⟩ : ∃ m, a.length - 1 = m + 1 := ⟨a.length - 1 - 1, by omega⟩
  have hIndex := h.index_ok hTable
  have hCard := hIndex.usedCount_eq
  rw [card_refs] at hCard
  rw [hLength] at hi hIndex hRef hCard
  obtain ⟨stored, hStored⟩ := Multiset.exists_cons_of_mem hRef
  refine ⟨m, stored, hLength, hi, hCard, (hStored ▸ hIndex).bury hp hSlot, ?_⟩
  show refAt keys table.seed a.data ref.index ::ₘ stored = _
  rw [← hRefEq]
  exact hStored.symm

/-- An erasure either finds no pair of its key and changes nothing, or fills the
hole that the pair leaves and reconsiders the size of the index. -/
theorem del_returned (h : TableOk keys a present) {hashSeed fuel : Nat} {key : K} {t' : Table K V}
    (hErase : stbdsHmdelKey keys hashSeed fuel (some a) key = some t') :
    ((∀ i < a.length - 1, keys.content key ≠ keys.content (a.data i).key) ∧
        t' = some { a with temp := 0 }) ∨
      ∃ table filled after i m, a.hashTable = some table ∧ a.length - 1 = m + 1 ∧ i < m + 1 ∧
        keys.content key = keys.content (a.data i).key ∧
        filled.usedCount + 1 = table.usedCount ∧
        filled.tombstoneCount = table.tombstoneCount + 1 ∧
        filled.slotCount = table.slotCount ∧
        IndexOk filled (refs keys filled.seed (Function.update a.data i (a.data m)) m) ∧
        indexAfterDel hashSeed fuel filled = some after ∧
        t' = some
          { data := Function.update a.data i (a.data m), length := a.length - 1,
            hashTable := some after, temp := 1 } := by
  simp only [stbdsHmdelKey] at hErase
  cases hTable : a.hashTable with
  | none =>
      rw [hTable] at hErase
      refine Or.inl ⟨fun i hi => ?_, hTable ▸ (Option.some.inj hErase).symm⟩
      rw [h.unindexed hTable] at hi
      exact absurd hi (Nat.not_lt_zero i)
  | some table =>
      rw [hTable] at hErase
      simp only [Option.bind_eq_some_iff] at hErase
      obtain ⟨slot, hFind, hRest⟩ := hErase
      have hIndex := h.index_ok hTable
      rcases findSlot_returned hIndex faithful_refs hFind with
        ⟨p, ref, rfl, hp, hRef, hSlot, hContent⟩ | ⟨rfl, hMiss⟩
      · obtain ⟨m, stored, hLength, hi, hCard, hBuried, hCons⟩ := h.bury hTable hp hRef hSlot
        rw [if_neg (by omega), Int.toNat_natCast, hSlot, hLength, Nat.add_sub_cancel] at hRest
        simp only [slotIndex, Int.toNat_natCast, Option.bind_eq_some_iff,
          Option.map_eq_some_iff] at hRest
        obtain ⟨⟨data, filled⟩, hFill, after, hAfter, rfl⟩ := hRest
        obtain ⟨hFilled, rfl, hUsed, hTombs, hSlots⟩ :=
          h.fillHole_returned hLength hi hBuried hCons hFill
        refine Or.inr ⟨table, filled, after, ref.index, m, rfl, hLength, hi, hContent, ?_, hTombs,
          hSlots, hFilled, hAfter, hLength ▸ rfl⟩
        rw [hUsed, hCard]
        show table.usedCount - 1 + 1 = m + 1
        omega
      · rw [if_pos (by decide)] at hRest
        exact Or.inl ⟨fun i hi => hMiss (refAt keys table.seed a.data i) (mem_refs.mpr ⟨hi, rfl⟩),
          hTable ▸ (Option.some.inj hRest).symm⟩

/-- An erasure of a present key removes one pair, the one of that key. An
erasure of an absent key changes no pair. -/
theorem erase (h : TableOk keys a present) {hashSeed fuel : Nat} {key : K} {t' : Table K V}
    (hErase : StbDsHmSh.erase keys hashSeed fuel (some a) key = some t') :
    ∃ a', t' = some a' ∧ TableOk keys a' ((keys.blueprint () 0).apply present (.erase key)) ∧
      ((∃ element, keys.content key = keys.content element.key ∧
          pairs (some a) = element ::ₘ pairs (some a')) ∨
        (present key = false ∧ pairs (some a') = pairs (some a))) := by
  rcases h.del_returned hErase with ⟨hNone, rfl⟩ |
    ⟨table, filled, after, i, m, _, hLength, hi, hContent, _, _, _, hFilled, hAfter, rfl⟩
  · have hKey : present key = false := by
      rw [Bool.eq_false_iff, ne_eq, h.present_iff]
      rintro ⟨i, hi, hEq⟩
      exact hNone i hi hEq
    refine ⟨_, rfl, ⟨h.length_pos, h.index_ok, h.unindexed, h.distinct, fun k => ?_⟩,
      Or.inr ⟨hKey, rfl⟩⟩
    simp only [Blueprint.apply, KeyAccess.blueprint, Bool.and_eq_true, Bool.not_eq_true',
      decide_eq_false_iff_not, h.present_iff]
    refine ⟨And.right, fun hMem => ⟨fun hSame => ?_, hMem⟩⟩
    obtain ⟨i, hi, hEq⟩ := hMem
    exact hNone i hi (hSame.trans hEq)
  · obtain ⟨hFinal, hSeed⟩ := indexAfterDel_returned hFilled hAfter
    rw [← hSeed] at hFinal
    refine ⟨_, rfl, h.swapRemove hLength hi hContent hFinal, Or.inl ⟨_, hContent, ?_⟩⟩
    rw [pairs, pairs, hLength]
    exact map_range_remove a.data hi

end TableOk

/-- The slots in use and the pairs correspond one to one: a slot stores the
hash of its pair's key, lies on that key's probe before any empty slot, and
the counters count the slots in use and the deleted ones. -/
structure IndexMatches (keys : KeyAccess K β) (a : DenseArray K V) (table : HashIndex) : Prop where
  slot_of_pair : ∀ i < a.length - 1,
    ∃! p, p < table.slotCount ∧ slotIndex (table.storage p) = (i : Int)
  pair_of_slot : ∀ p < table.slotCount, 0 ≤ slotIndex (table.storage p) →
    ∃ i < a.length - 1, slotIndex (table.storage p) = (i : Int) ∧
      slotHash (table.storage p) = hashFor keys table.seed (a.data i).key ∧
      slotHash (table.storage p) ≠ 0 ∧ slotHash (table.storage p) ≠ 1 ∧
      Reach table.storage (keySeq keys table (a.data i).key) p
  usedCount_eq : table.usedCount =
    ((Finset.range table.slotCount).filter fun p => 0 ≤ slotIndex (table.storage p)).card
  tombstoneCount_eq : table.tombstoneCount =
    ((Finset.range table.slotCount).filter fun p => slotIndex (table.storage p) = -2).card

theorem slotIndex_nonneg_iff {s : Slot Ref} : 0 ≤ slotIndex s ↔ s.isLive = true := by
  cases s <;> simp [slotIndex]

theorem slotIndex_eq_deleted_iff {s : Slot Ref} : slotIndex s = -2 ↔ s.isDeleted = true := by
  cases s with
  | live ref =>
      simp only [slotIndex, Slot.isDeleted_live, Bool.false_eq_true, iff_false]
      omega
  | _ => simp [slotIndex]

theorem live_of_slotIndex {s : Slot Ref} {i : Nat} (h : slotIndex s = (i : Int)) :
    ∃ ref, s = .live ref ∧ ref.index = i := by
  cases s with
  | empty => simp only [slotIndex] at h; omega
  | deleted => simp only [slotIndex] at h; omega
  | live ref => exact ⟨ref, rfl, by simpa [slotIndex] using h⟩

namespace TableOk

variable {a : DenseArray K V} {present : K → Bool}

theorem indexMatches (h : TableOk keys a present) {table : HashIndex}
    (hTable : a.hashTable = some table) : IndexMatches keys a table := by
  have hIndex := h.index_ok hTable
  have hContents := hIndex.contents_eq
  have hNodup : ((contents table.storage table.slotCount).map Ref.index).Nodup := by
    rw [hContents, refs, Multiset.map_map]
    exact (Multiset.map_id' _).symm ▸ Multiset.nodup_range _
  refine ⟨fun i hi => ?_, fun p hp hUsed => ?_, ?_, ?_⟩
  · obtain ⟨p, hp, hSlot⟩ := mem_contents.mp (hContents ▸ mem_refs.mpr
      (show (refAt keys table.seed a.data i).index < a.length - 1 ∧ _ from ⟨hi, rfl⟩))
    refine ⟨p, ⟨hp, by rw [hSlot]; rfl⟩, fun q hUsed => ?_⟩
    obtain ⟨hq, hqIndex⟩ := hUsed
    obtain ⟨ref, hqSlot, hRefIndex⟩ := live_of_slotIndex hqIndex
    exact slot_unique hNodup hq hp hqSlot hSlot hRefIndex
  · cases hSlot : table.storage p with
    | empty => simp [hSlot, slotIndex] at hUsed
    | deleted => simp [hSlot, slotIndex] at hUsed
    | live ref =>
        obtain ⟨hi, hRef⟩ := mem_refs.mp (hContents ▸ mem_contents.mpr ⟨p, hp, hSlot⟩)
        have hHash : ref.hash = hashFor keys table.seed (a.data ref.index).key :=
          congrArg Ref.hash hRef
        have hTwo := ref.hash.2
        refine ⟨ref.index, hi, rfl, slotHash_live_eq_iff.mpr hHash, ?_, ?_, ?_⟩
        · simp only [slotHash]
          omega
        · simp only [slotHash]
          omega
        · have hReach := hIndex.probed p hp ref hSlot
          rwa [refSeq, hHash] at hReach
  · simp only [slotIndex_nonneg_iff]
    rw [card_filter_live, hContents, hIndex.usedCount_eq]
  · simp only [slotIndex_eq_deleted_iff]
    rw [card_filter_deleted, hIndex.tombstoneCount_eq]

theorem isItrValid_iff (h : TableOk keys a present) (i : Nat) :
    StbDsHmSh.isItrValid (some a) (i : Int) = true ↔ i < a.length - 1 := by
  have hPos := h.length_pos
  have hLength : stbdsHmlen (some a) = (a.length : Int) - 1 := rfl
  rw [StbDsHmSh.isItrValid, hLength, Bool.and_eq_true, decide_eq_true_iff, decide_eq_true_iff]
  omega

/-- Counting up from an index visits the pairs from it on. -/
theorem visits_from (h : TableOk keys a present) {i count : Nat}
    (hCount : i + count = a.length - 1) :
    Visits (StbDsHmSh.isItrValid (some a)) StbDsHmSh.incrementItr
      (StbDsHmSh.getKeyFromItr (some a)) (i : Int)
      ((List.range' i count).map fun j => some (a.data j).key) := by
  induction count generalizing i with
  | zero =>
      refine .done (Bool.eq_false_iff.mpr fun hValid => ?_)
      rw [h.isItrValid_iff] at hValid
      omega
  | succ count ih =>
      rw [List.range'_succ, List.map_cons]
      exact .cons ((h.isItrValid_iff i).mpr (by omega)) rfl
        (ih (show i + 1 + count = a.length - 1 by omega))

variable [DecidableEq β]

theorem enumerates (h : TableOk keys a present) :
    (keys.blueprint () 0).Enumerates
      ((List.range (a.length - 1)).map fun i => (a.data i).key) present := by
  constructor
  · rw [List.pairwise_map]
    refine List.pairwise_lt_range.imp_of_mem fun {i j} hi hj hLt => ?_
    refine decide_eq_false fun hEq => ?_
    have hSame := h.distinct (List.mem_range.mp hi) (List.mem_range.mp hj) hEq
    omega
  · intro k
    simp only [h.present_iff, List.mem_map, List.mem_range, KeyAccess.blueprint,
      decide_eq_true_eq]
    constructor
    · rintro ⟨i, hi, hEq⟩
      exact ⟨_, ⟨i, hi, rfl⟩, hEq⟩
    · rintro ⟨_, ⟨i, hi, rfl⟩, hEq⟩
      exact ⟨i, hi, hEq⟩

end TableOk

namespace TableInv

variable [DecidableEq β] {t t' : Table K V} {present : K → Bool} {value : V}
  {fresh : Nat → Element K V} {hashSeed fuel : Nat} {key : K}

theorem insert (h : TableInv keys t present)
    (hInsert : StbDsHmSh.insert keys value fresh hashSeed fuel t key = some t') :
    TableInv keys t' ((keys.blueprint () 0).apply present (.insert key)) := by
  cases t with
  | none =>
      have hFirst : StbDsHmSh.insert keys value fresh hashSeed fuel (some (newArray fresh)) key =
          some t' := hInsert
      exact (TableOk.newArray fresh h).insert hFirst
  | some a => exact TableOk.insert h hInsert

theorem erase (h : TableInv keys t present)
    (hErase : StbDsHmSh.erase keys hashSeed fuel t key = some t') :
    TableInv keys t' ((keys.blueprint () 0).apply present (.erase key)) ∧
      ((∃ element, keys.content key = keys.content element.key ∧
          pairs t = element ::ₘ pairs t') ∨
        (present key = false ∧ pairs t' = pairs t)) := by
  cases t with
  | none =>
      obtain rfl := Option.some.inj hErase
      refine ⟨fun k => ?_, Or.inr ⟨h key, rfl⟩⟩
      show (!_ && present k) = false
      rw [h k, Bool.and_false]
  | some a =>
      obtain ⟨a', rfl, hOk, hPairs⟩ := TableOk.erase h hErase
      exact ⟨hOk, hPairs⟩

/-- A search returns the index of its key or `-1`, and changes no pair. -/
theorem find {itr : Int} (h : TableInv keys t present)
    (hFind : StbDsHmSh.find keys fresh fuel t key = some (t', itr)) :
    TableInv keys t' present ∧
      ((present key = true ∧ 0 ≤ itr ∧ itr < stbdsHmlen t' ∧
          ∃ k, StbDsHmSh.getKeyFromItr t' itr = some k ∧ keys.content key = keys.content k) ∨
        (present key = false ∧ itr = -1)) := by
  simp only [StbDsHmSh.find, Option.map_eq_some_iff] at hFind
  obtain ⟨a', hGet, hEq⟩ := hFind
  obtain ⟨rfl, rfl⟩ := Prod.mk.inj hEq
  cases t with
  | none =>
      obtain rfl := Option.some.inj hGet
      exact ⟨(TableOk.newArray fresh h).setTemp _, Or.inr ⟨h key, rfl⟩⟩
  | some a =>
      have hOk : TableOk keys a present := h
      have hAbsent (hNone : ∀ i < a.length - 1, keys.content key ≠ keys.content (a.data i).key) :
          present key = false := by
        rw [Bool.eq_false_iff, ne_eq, hOk.present_iff]
        rintro ⟨i, hi, hEq⟩
        exact hNone i hi hEq
      simp only [stbdsHmgetKey] at hGet
      cases hTable : a.hashTable with
      | none =>
          rw [hTable] at hGet
          obtain rfl := Option.some.inj hGet
          refine ⟨hTable ▸ hOk.setTemp (-1), Or.inr ⟨hAbsent fun i hi => ?_, rfl⟩⟩
          rw [hOk.unindexed hTable] at hi
          exact absurd hi (Nat.not_lt_zero i)
      | some table =>
          rw [hTable] at hGet
          simp only [Option.map_eq_some_iff] at hGet
          obtain ⟨slot, hFind, rfl⟩ := hGet
          refine ⟨hTable ▸ hOk.setTemp _, ?_⟩
          rcases findSlot_returned (hOk.index_ok hTable) faithful_refs hFind with
            ⟨p, ref, rfl, _, hRef, hSlot, hContent⟩ | ⟨rfl, hMiss⟩
          · obtain ⟨hi, _⟩ := mem_refs.mp hRef
            refine Or.inl ⟨(hOk.present_iff key).mpr ⟨_, hi, hContent⟩, ?_⟩
            rw [if_neg (by omega), Int.toNat_natCast, hSlot]
            simp only [slotIndex, stbdsHmlen]
            exact ⟨by omega, by omega, _, rfl, hContent⟩
          · exact Or.inr ⟨hAbsent fun i hi =>
              hMiss (refAt keys table.seed a.data i) (mem_refs.mpr ⟨hi, rfl⟩), rfl⟩

theorem present_concat (calls : List (Call K)) (call : Call K) :
    StbDs.present keys (calls ++ [call]) =
      match call.op? with
      | some op => (keys.blueprint () 0).apply (StbDs.present keys calls) op
      | none => StbDs.present keys calls := by
  rw [StbDs.present, List.filterMap_append]
  cases call with
  | insert key => exact Blueprint.present_concat _ _ _
  | erase key => exact Blueprint.present_concat _ _ _
  | find key => exact congrArg _ (List.append_nil _)

/-- Every call that returns keeps the invariant. -/
theorem call {calls : List (Call K)} {call : Call K} (h : TableInv keys t (StbDs.present keys calls))
    (hCall : StbDsHmSh.call keys value fresh hashSeed fuel t call = some t') :
    TableInv keys t' (StbDs.present keys (calls ++ [call])) := by
  rw [present_concat]
  cases call with
  | insert key => exact h.insert hCall
  | erase key => exact (h.erase hCall).1
  | find key =>
      simp only [StbDsHmSh.call, Option.map_eq_some_iff] at hCall
      obtain ⟨⟨t'', itr⟩, hFind, rfl⟩ := hCall
      exact (h.find hFind).1

theorem run_concat (calls : List (Call K)) (call : Call K) :
    StbDsHmSh.run keys value fresh hashSeed fuel (calls ++ [call]) =
      (StbDsHmSh.run keys value fresh hashSeed fuel calls).bind
        (StbDsHmSh.call keys value fresh hashSeed fuel · call) := by
  rw [StbDsHmSh.run, List.foldlM_append]
  simp only [List.foldlM_cons, List.foldlM_nil, bind_pure]
  rfl

/-- A run all of whose loops end keeps the invariant. -/
theorem run {calls : List (Call K)}
    (hRun : StbDsHmSh.run keys value fresh hashSeed fuel calls = some t) :
    TableInv keys t (StbDs.present keys calls) := by
  induction calls using List.reverseRecOn generalizing t with
  | nil =>
      obtain rfl := Option.some.inj hRun
      exact fun _ => rfl
  | append_singleton calls call ih =>
      rw [run_concat, Option.bind_eq_some_iff] at hRun
      obtain ⟨before, hBefore, hCall⟩ := hRun
      exact (ih hBefore).call hCall

end TableInv

/-- Whenever the calls of a run return, the index matches the dense array,
searches find exactly the present keys, counting up from zero visits each
present key once, and an erasure removes the pair of its key alone. -/
theorem stbDs_refines [DecidableEq β] (keys : KeyAccess K β) (value : V)
    (fresh : Nat → Element K V) (hashSeed fuel : Nat) (calls : List (Call K)) (t : Table K V)
    (hRun : StbDsHmSh.run keys value fresh hashSeed fuel calls = some t) :
    (∀ a, t = some a → (a.hashTable = none → stbdsHmlen t = 0) ∧
        ∀ table, a.hashTable = some table → IndexMatches keys a table) ∧
      (∀ fuel' key t' itr, StbDsHmSh.find keys fresh fuel' t key = some (t', itr) →
        (present keys calls key = true ∧ 0 ≤ itr ∧ itr < stbdsHmlen t' ∧
            ∃ k, StbDsHmSh.getKeyFromItr t' itr = some k ∧ keys.content key = keys.content k) ∨
          (present keys calls key = false ∧ itr = -1)) ∧
      (∃ order, (keys.blueprint () 0).Enumerates order (present keys calls) ∧
        Visits (StbDsHmSh.isItrValid t) StbDsHmSh.incrementItr (StbDsHmSh.getKeyFromItr t)
          StbDsHmSh.beginItr (order.map some)) ∧
      ∀ fuel' key t', StbDsHmSh.erase keys hashSeed fuel' t key = some t' →
        (∃ element, keys.content key = keys.content element.key ∧
            pairs t = element ::ₘ pairs t') ∨
          (present keys calls key = false ∧ pairs t' = pairs t) := by
  have hInv := TableInv.run hRun
  refine ⟨fun a hEq => ?_, fun fuel' key t' itr hFind => (hInv.find hFind).2, ?_,
    fun fuel' key t' hErase => (hInv.erase hErase).2⟩
  · subst hEq
    have hOk : TableOk keys a (present keys calls) := hInv
    refine ⟨fun hNone => ?_, fun table hTable => hOk.indexMatches hTable⟩
    rw [stbdsHmlen, hOk.unindexed hNone]
    rfl
  · cases t with
    | none =>
        refine ⟨[], ⟨List.Pairwise.nil, fun k => ?_⟩, .done rfl⟩
        have hNone : present keys calls k = false := hInv k
        simp [hNone]
    | some a =>
        have hOk : TableOk keys a (present keys calls) := hInv
        refine ⟨_, hOk.enumerates, ?_⟩
        rw [List.map_map, List.range_eq_range']
        exact hOk.visits_from (Nat.zero_add _)

/-- Two keys whose probes start in one slot, and the erasure of the first. -/
theorem stbDs_refines_collision :
    ∃ t, StbDsHmSh.run ⟨.binary, id, fun _ _ => 8⟩ () (fun _ => ⟨0, ()⟩) 0 2
        [.insert 3, .insert 5, .erase 3] = some t ∧
      ∃ order, (KeyAccess.blueprint (⟨.binary, id, fun _ _ => 8⟩ : KeyAccess Nat Nat) () 0).Enumerates
          order (present ⟨.binary, id, fun _ _ => 8⟩ [.insert 3, .insert 5, .erase 3]) ∧
        Visits (StbDsHmSh.isItrValid t) StbDsHmSh.incrementItr (StbDsHmSh.getKeyFromItr t)
          StbDsHmSh.beginItr (order.map some) :=
  ⟨_, rfl, (stbDs_refines ⟨.binary, id, fun _ _ => 8⟩ () (fun _ => ⟨0, ()⟩) 0 2 _ _ rfl).2.2.1⟩

end HashBench.StbDs
