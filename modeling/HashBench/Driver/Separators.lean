import HashBench.Library.Search
import HashBench.Library.Separated

/-! The labels of the x-axis, which are decimal numbers with thousands
separators. The separators are inserted from the end of the number on, so that
every insertion is in front of the groups that are complete. -/
namespace HashBench.Driver

open Search Separated

/-- `std::out_of_range`. -/
inductive StringFault
  | outOfRange
  deriving DecidableEq, Repr

/-- `result.insert( pos, 1, c )`. -/
def insertChar (result : List Char) (pos : Nat) (c : Char) : Except StringFault (List Char) :=
  if pos ≤ result.length then .ok (result.take pos ++ c :: result.drop pos)
  else .error .outOfRange

def insertSeparators : Nat → List Char → Int → ExceptT StringFault Option (List Char)
  | 0, _, _ => ExceptT.mk none
  | fuel + 1, result, pos =>
      if 0 < pos then do
        let result ← ExceptT.mk (some (insertChar result pos.toNat ','))
        insertSeparators fuel result (pos - 3)
      else pure result

/-- `result.length() - 3`, an unsigned number of 64 bits that is stored to an `int`. -/
def firstPos (result : List Char) : Int :=
  ((BitVec.ofNat 64 result.length - 3#64).setWidth 32).toInt

def uintToStringWithSeparators (value : BitVec 64) (fuel : Nat) :
    ExceptT StringFault Option (List Char) :=
  let result := Nat.toDigits 10 value.toNat
  insertSeparators fuel result (firstPos result)

/-- What a label is for its value. -/
structure Labels (value : BitVec 64) (label : List Char) : Prop where
  digits : label.filter (· != ',') = Nat.toDigits 10 value.toNat
  reads : Nat.ofDigitChars 10 (label.filter (· != ',')) 0 = value.toNat
  canonical : value ≠ 0#64 → label.head? ≠ some '0'
  starts : ∃ c, label.head? = some c ∧ c.isDigit = true
  ends : ∃ c, label.getLast? = some c ∧ c.isDigit = true
  groups : ∃ first rest, label.splitOn ',' = first :: rest ∧ 1 ≤ first.length ∧
    first.length ≤ 3 ∧ ∀ group ∈ rest, group.length = 3

section Loop

/-- One round of the loop cuts one group off the first, which stays nonempty. -/
theorem insertSeparators_returns (g : Grouping Char 3) (pos : Int)
    (hPos : (g.lead.length : Int) = pos + 3) (hLead : 0 < g.lead.length) :
    ∃ g' : Grouping Char 3, g'.text = g.text ∧ 0 < g'.lead.length ∧ g'.lead.length ≤ 3 ∧
      ReturnsTo (fun fuel => (insertSeparators fuel (g.joined ',') pos).run)
        (.ok (g'.joined ',')) := by
  induction hSize : g.lead.length using Nat.strong_induction_on generalizing g pos with
  | h size ih =>
      by_cases hMore : 0 < pos
      · obtain ⟨p, rfl⟩ := Int.eq_ofNat_of_zero_le hMore.le
        have hLength : g.lead.length = p + 3 := by omega
        have hCut : (g.cut p hLength).lead.length = p := by
          rw [Grouping.cut, List.length_take]
          omega
        obtain ⟨g', hText, hFirst, hShort, hReturns⟩ := ih p (by omega) (g.cut p hLength)
          ((p : Int) - 3) (by omega) (by omega) hCut
        have hInside : p ≤ (g.joined ',').length := by
          have hPrefix : g.lead.length ≤ (g.joined ',').length :=
            Grouping.lead_prefix_joined.length_le
          omega
        refine ⟨g', hText.trans (Grouping.text_cut hLength), hFirst, hShort, .of_succ ?_⟩
        simp only [insertSeparators, if_pos hMore, Int.toNat_natCast, insertChar, if_pos hInside,
          ← Grouping.joined_cut hLength]
        exact hReturns
      · refine ⟨g, rfl, hLead, by omega, .of_succ ?_⟩
        simp only [insertSeparators, if_neg hMore]
        exact ReturnsTo.pure _

/-- No number has so many digits that the first position wraps. -/
theorem firstPos_eq (value : BitVec 64) : firstPos (Nat.toDigits 10 value.toNat) =
    ((Nat.toDigits 10 value.toNat).length : Int) - 3 := by
  have hLength : (Nat.toDigits 10 value.toNat).length < 21 :=
    Nat.lt_succ_of_le ((Nat.length_toDigits_le_iff (by decide) (by decide)).mpr
      (value.isLt.trans (by decide)))
  have hShort : ∀ length < 21,
      ((BitVec.ofNat 64 length - 3#64).setWidth 32).toInt = (length : Int) - 3 := by decide
  exact hShort _ hLength

end Loop

section Digits

theorem not_mem_toDigits (n : Nat) : ',' ∉ Nat.toDigits 10 n := fun h =>
  absurd (Nat.isDigit_of_mem_toDigits (by decide) (by decide) h) (by decide)

theorem head_toDigits_ne_zero {n : Nat} (h : n ≠ 0) : (Nat.toDigits 10 n).head? ≠ some '0' := by
  induction n using Nat.strong_induction_on with
  | h n ih =>
      rw [Nat.toDigits_eq_if (by decide)]
      split
      · simpa using h
      · rw [List.head?_append_of_ne_nil _ Nat.toDigits_ne_nil]
        exact ih (n / 10) (by omega) (by omega)

theorem labels_of_text {value : BitVec 64} {g : Grouping Char 3}
    (hText : g.text = Nat.toDigits 10 value.toNat) (hFirst : 0 < g.lead.length)
    (hShort : g.lead.length ≤ 3) : Labels value (g.joined ',') := by
  have hComma : ',' ∉ g.text := hText ▸ not_mem_toDigits value.toNat
  have hLead : g.lead ≠ [] := List.ne_nil_of_length_pos hFirst
  have hDigit (c : Char) (hc : c ∈ g.text) : c.isDigit = true :=
    Nat.isDigit_of_mem_toDigits (by decide) (by decide) (hText ▸ hc)
  have hSome : g.text ≠ [] := hText ▸ Nat.toDigits_ne_nil
  have hFilter := (Grouping.filter_joined hComma).trans hText
  refine ⟨hFilter, ?_, ?_, ?_, ?_, ?_⟩
  · rw [hFilter, Nat.ofDigitChars_ten_toDigits]
  · intro hValue
    rw [Grouping.head_joined hLead, hText]
    exact head_toDigits_ne_zero fun h => hValue (BitVec.eq_of_toNat_eq h)
  · exact ⟨g.text.head hSome, (Grouping.head_joined hLead).trans (List.head?_eq_some_head hSome),
      hDigit _ (List.head_mem hSome)⟩
  · exact ⟨g.text.getLast hSome, (Grouping.getLast_joined (by decide)).trans
      (List.getLast?_eq_some_getLast hSome), hDigit _ (List.getLast_mem hSome)⟩
  · exact ⟨g.lead, g.groups, Grouping.splitOn_joined hComma, hFirst, hShort, g.full⟩

end Digits

/-- The loop ends without an exception, with the value's digits in groups of
three. Values with one label are equal. -/
theorem uint_to_string_groups (value : BitVec 64) : ∃ label,
    ReturnsTo (fun fuel => (uintToStringWithSeparators value fuel).run) (.ok label) ∧
    Labels value label ∧
    ∀ value', ReturnsTo (fun fuel => (uintToStringWithSeparators value' fuel).run) (.ok label) →
      value' = value := by
  have hReturns (value : BitVec 64) : ∃ label,
      ReturnsTo (fun fuel => (uintToStringWithSeparators value fuel).run) (.ok label) ∧
      Labels value label := by
    obtain ⟨g, hText, hFirst, hShort, hReturns⟩ := insertSeparators_returns
      (.whole (Nat.toDigits 10 value.toNat)) (firstPos (Nat.toDigits 10 value.toNat))
      (by rw [firstPos_eq, Int.sub_add_cancel]; rfl) Nat.length_toDigits_pos
    rw [Grouping.joined_whole] at hReturns
    rw [Grouping.text_whole] at hText
    exact ⟨_, hReturns, labels_of_text hText hFirst hShort⟩
  obtain ⟨label, hLabel, hLabels⟩ := hReturns value
  refine ⟨label, hLabel, hLabels, fun value' hLabel' => BitVec.eq_of_toNat_eq ?_⟩
  obtain ⟨label', hReturns', hLabels'⟩ := hReturns value'
  obtain rfl := Except.ok.inj (hReturns'.unique hLabel')
  rw [← hLabels'.reads, ← hLabels.reads]

example : (uintToStringWithSeparators 1234567#64 8).run = some (.ok "1,234,567".toList) := by
  decide

end HashBench.Driver
