import Mathlib.Data.List.Basic

/-! Texts cut into groups of one length, counted from their end, and joined by a
separator. The first group holds what is left over. -/
namespace Separated

/-- The groups of a text. All of them but the first have the given length. -/
structure Grouping (α : Type*) (size : Nat) where
  lead : List α
  groups : List (List α)
  full : ∀ group ∈ groups, group.length = size

namespace Grouping

variable {α : Type*} {size : Nat}

def parts (g : Grouping α size) : List (List α) := g.lead :: g.groups

def text (g : Grouping α size) : List α := g.parts.flatten

def joined (sep : α) (g : Grouping α size) : List α := [sep].intercalate g.parts

/-- The text as one group. -/
def whole (text : List α) : Grouping α size where
  lead := text
  groups := []
  full _ h := absurd h List.not_mem_nil

/-- One group more, from the end of the first. -/
def cut (g : Grouping α size) (pos : Nat) (h : g.lead.length = pos + size) : Grouping α size where
  lead := g.lead.take pos
  groups := g.lead.drop pos :: g.groups
  full group hGroup := by
    rcases List.mem_cons.mp hGroup with rfl | hGroup
    · rw [List.length_drop, h, Nat.add_sub_cancel_left]
    · exact g.full group hGroup

@[simp] theorem text_whole (text : List α) : (whole text : Grouping α size).text = text :=
  List.append_nil text

@[simp] theorem joined_whole (sep : α) (text : List α) :
    (whole text : Grouping α size).joined sep = text :=
  List.intercalate_singleton

/-- The groups after the first, each behind its separator. -/
theorem joined_eq (sep : α) (g : Grouping α size) :
    g.joined sep = g.lead ++ g.groups.flatMap (sep :: ·) := by
  have hJoin (lead : List α) (groups : List (List α)) :
      [sep].intercalate (lead :: groups) = lead ++ groups.flatMap (sep :: ·) := by
    induction groups generalizing lead with
    | nil => rw [List.intercalate_singleton, List.flatMap_nil, List.append_nil]
    | cons group groups ih =>
        rw [List.intercalate_cons_cons, ih, List.flatMap_cons]
        simp only [List.append_assoc, List.cons_append, List.nil_append]
  exact hJoin g.lead g.groups

section Cut

variable {g : Grouping α size} {pos : Nat} (h : g.lead.length = pos + size)

theorem text_cut : (g.cut pos h).text = g.text := by
  simp only [text, parts, cut, List.flatten_cons, ← List.append_assoc, List.take_append_drop]

/-- A cut inserts one separator. -/
theorem joined_cut (sep : α) :
    (g.cut pos h).joined sep = (g.joined sep).take pos ++ sep :: (g.joined sep).drop pos := by
  have hLe : pos ≤ g.lead.length := by omega
  rw [joined_eq, joined_eq, List.take_append_of_le_length hLe, List.drop_append_of_le_length hLe]
  rfl

end Cut

section Ends

variable {g : Grouping α size} {sep : α}

theorem head_joined (hLead : g.lead ≠ []) : (g.joined sep).head? = g.text.head? := by
  rw [joined_eq, List.head?_append_of_ne_nil _ hLead]
  exact (List.head?_append_of_ne_nil _ hLead).symm

/-- No separator stands at the end. -/
theorem getLast_joined (hSize : 0 < size) : (g.joined sep).getLast? = g.text.getLast? := by
  rcases List.eq_nil_or_concat g.groups with hNil | ⟨groups, group, hConcat⟩
  · rw [joined_eq, text, parts, List.flatten_cons, hNil]
    rfl
  · rw [List.concat_eq_append] at hConcat
    have hLength : group.length = size :=
      g.full group (hConcat ▸ List.mem_append_right _ List.mem_cons_self)
    have hGroup : group ≠ [] := List.ne_nil_of_length_pos (hLength ▸ hSize)
    have hText : g.text = g.lead ++ groups.flatten ++ group := by
      simp only [text, parts, hConcat, List.flatten_cons, List.flatten_append, List.flatten_nil,
        List.append_nil, List.append_assoc]
    have hJoined : g.joined sep = g.lead ++ groups.flatMap (sep :: ·) ++ [sep] ++ group := by
      simp only [joined_eq, hConcat, List.flatMap_append, List.flatMap_cons, List.flatMap_nil,
        List.append_nil, List.append_assoc, List.singleton_append]
    rw [hText, hJoined, List.getLast?_append_of_ne_nil _ hGroup,
      List.getLast?_append_of_ne_nil _ hGroup]

end Ends

section Join

variable {g : Grouping α size} {sep : α}

theorem lead_prefix_joined : g.lead <+: g.joined sep := by
  rw [joined_eq]
  exact List.prefix_append ..

theorem not_mem_part (h : sep ∉ g.text) {part : List α} (hPart : part ∈ g.parts) : sep ∉ part :=
  fun hSep => h (List.mem_flatten.mpr ⟨part, hPart, hSep⟩)

variable [BEq α] [LawfulBEq α]

/-- Without the separators the text is back. -/
theorem filter_joined (h : sep ∉ g.text) : (g.joined sep).filter (· != sep) = g.text := by
  have hKeep (part : List α) (hPart : part ∈ g.parts) : part.filter (· != sep) = part :=
    List.filter_eq_self.mpr fun a ha =>
      bne_iff_ne.mpr fun hEq => not_mem_part h hPart (hEq ▸ ha)
  have hGroups : (g.groups.flatMap (sep :: ·)).filter (· != sep) = g.groups.flatten := by
    rw [List.filter_flatMap, ← List.flatMap_id']
    refine List.flatMap_congr fun group hGroup => ?_
    rw [List.filter_cons_of_neg (by simp)]
    exact hKeep group (List.mem_cons_of_mem _ hGroup)
  rw [joined_eq, List.filter_append, hKeep g.lead List.mem_cons_self, hGroups]
  rfl

/-- The separators tell the groups. -/
theorem splitOn_joined (h : sep ∉ g.text) : (g.joined sep).splitOn sep = g.parts :=
  List.splitOn_intercalate sep (fun _ hPart => not_mem_part h hPart) (List.cons_ne_nil _ _)

end Join

end Grouping

end Separated
