import Mathlib.Data.List.Nodup
import Mathlib.Data.List.Infix

/-!
# Rows in the order of first occurrence

A table gets a row for each key of a sequence that it has none for, so that its rows are the keys
in the order in which they first occur. A reference that is made to the last row when a key has
come is to the row of that key if and only if no key was new since the key first came.
-/

namespace FirstSeen

variable {κ : Type}

/-- No key that comes between two occurrences of another is new. -/
def Unparted (keys : List κ) : Prop :=
  ∀ before x between k after, keys = before ++ x :: (between ++ k :: after) → k ∈ before →
    x ∈ before

theorem unparted_of_nodup {keys : List κ} (nodup : keys.Nodup) : Unparted keys := by
  intro before x between k after split mem
  rw [split] at nodup
  have later : k ∈ x :: (between ++ k :: after) :=
    List.mem_cons_of_mem _ (List.mem_append_right _ List.mem_cons_self)
  exact absurd later (List.disjoint_of_nodup_append nodup mem)

variable [BEq κ] [LawfulBEq κ]

theorem concat_of_mem {keys : List κ} {k : κ} (mem : k ∈ keys) :
    (keys ++ [k]).eraseDups = keys.eraseDups := by
  rw [List.eraseDups_append]
  simp [List.removeAll, mem]

theorem concat_of_not_mem {keys : List κ} {k : κ} (new : k ∉ keys) :
    (keys ++ [k]).eraseDups = keys.eraseDups ++ [k] := by
  rw [List.eraseDups_append]
  simp [List.removeAll, new, List.eraseDups_cons]

theorem nodup_eraseDups (keys : List κ) : keys.eraseDups.Nodup := by
  induction keys using List.reverseRecOn with
  | nil => exact List.nodup_nil
  | append_singleton keys k ih =>
      by_cases mem : k ∈ keys
      · rw [concat_of_mem mem]
        exact ih
      · rw [concat_of_not_mem mem]
        rw [← List.concat_eq_append]
        exact ih.concat fun seen => mem (List.mem_eraseDups.mp seen)

/-- Rows stay where they are. -/
theorem prefix_append (keys more : List κ) : keys.eraseDups <+: (keys ++ more).eraseDups := by
  rw [List.eraseDups_append]
  exact List.prefix_append _ _

/-- When a key has come, the last row is its own if and only if no key was new since it first
came. -/
theorem getLast?_eraseDups (keys : List κ) (k : κ) :
    (keys ++ [k]).eraseDups.getLast? = some k ↔
      ∀ before x between, keys = before ++ x :: between → k ∈ before → x ∈ before := by
  induction keys using List.reverseRecOn with
  | nil =>
      refine iff_of_true rfl ?_
      intro before x between split
      cases before <;> cases split
  | append_singleton keys last ih =>
      have unfolded : (∀ before x between, keys ++ [last] = before ++ x :: between →
          k ∈ before → x ∈ before) ↔ (k ∈ keys → last ∈ keys) ∧
            ∀ before x between, keys = before ++ x :: between → k ∈ before → x ∈ before := by
        constructor
        · intro settled
          refine ⟨settled keys last [] rfl, ?_⟩
          intro before x between split
          exact settled before x (between ++ [last]) (by rw [split, List.append_assoc]; rfl)
        · rintro ⟨atEnd, settled⟩ before x between split
          rcases List.eq_nil_or_concat between with rfl | ⟨init, y, rfl⟩
          · obtain ⟨rfl, same⟩ := List.append_inj' split rfl
            cases same
            exact atEnd
          · have parts : keys ++ [last] = (before ++ x :: init) ++ [y] := by
              rw [split, List.concat_eq_append, List.append_assoc]
              rfl
            exact settled before x init (List.append_inj' parts rfl).1
      rw [unfolded]
      by_cases old : k ∈ keys
      · have seen : k ∈ keys ++ [last] := List.mem_append_left _ old
        rw [concat_of_mem seen]
        by_cases known : last ∈ keys
        · rw [concat_of_mem known, ← concat_of_mem old, ih]
          exact (and_iff_right fun _ => known).symm
        · rw [concat_of_not_mem known, List.getLast?_concat]
          refine iff_of_false ?_ fun settled => known (settled.1 old)
          rintro same
          exact known (Option.some.inj same ▸ old)
      · have trivially : ∀ before x between, keys = before ++ x :: between →
            k ∈ before → x ∈ before := by
          intro before x between split mem
          exact absurd (split ▸ List.mem_append_left _ mem) old
        refine iff_of_true ?_ ⟨fun mem => absurd mem old, trivially⟩
        by_cases same : k = last
        · subst same
          rw [concat_of_mem (List.mem_append_right _ List.mem_cons_self), concat_of_not_mem old,
            List.getLast?_concat]
        · have new : k ∉ keys ++ [last] := by
            rintro mem
            rcases List.mem_append.mp mem with before | atEnd
            · exact old before
            · exact same (List.mem_singleton.mp atEnd)
          rw [concat_of_not_mem new, List.getLast?_concat]

theorem unparted_iff (keys : List κ) : Unparted keys ↔
    ∀ before k after, keys = before ++ k :: after →
      (before ++ [k]).eraseDups.getLast? = some k := by
  constructor
  · intro unparted before k after split
    rw [getLast?_eraseDups]
    intro first x between parts
    exact unparted first x between k after (by rw [split, parts, List.append_assoc]; rfl)
  · intro own before x between k after split
    have parts : keys = (before ++ x :: between) ++ k :: after := by
      rw [split, List.append_assoc]
      rfl
    exact (getLast?_eraseDups _ _).mp (own _ k after parts) before x between rfl

/-- The row that is the last one when a key has come. -/
theorem row_of_prefix (before : List κ) (k : κ) (after : List κ) :
    (before ++ k :: after).eraseDups[(before ++ [k]).eraseDups.length - 1]? =
      (before ++ [k]).eraseDups.getLast? := by
  have split : before ++ k :: after = (before ++ [k]) ++ after := by
    rw [List.append_assoc]
    rfl
  obtain ⟨rest, rows⟩ := prefix_append (before ++ [k]) after
  have some : 0 < (before ++ [k]).eraseDups.length := by
    apply List.length_pos_of_mem (a := k)
    exact List.mem_eraseDups.mpr (List.mem_append_right _ List.mem_cons_self)
  rw [split, ← rows, List.getElem?_append_left (by omega), List.getLast?_eq_getElem?]

end FirstSeen
