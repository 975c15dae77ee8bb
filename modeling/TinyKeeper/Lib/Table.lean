import Mathlib.Data.Finset.Basic
import Mathlib.Data.Finset.Dedup
import Mathlib.Data.Finset.Fold
import Mathlib.Data.List.Perm.Basic
import Mathlib.Logic.Function.Basic

/-! Hash tables that are only looked up, and the orders in which a hash set may be iterated. -/
namespace TinyKeeper

/-- A hash table as the partial function its lookups compute. -/
@[ext] structure Table (κ β : Type*) where
  get : κ → Option β

namespace Table
variable {κ β : Type*}

def empty : Table κ β := ⟨fun _ => none⟩

def contains (t : Table κ β) (k : κ) : Bool := (t.get k).isSome

@[simp] theorem get_empty (k : κ) : (empty : Table κ β).get k = none := rfl

theorem contains_eq_true_iff (t : Table κ β) (k : κ) :
    t.contains k = true ↔ ∃ v, t.get k = some v := by
  simp [contains, Option.isSome_iff_exists]

@[simp] theorem contains_eq_false_iff (t : Table κ β) (k : κ) :
    t.contains k = false ↔ t.get k = none := by
  simp [contains]

variable [DecidableEq κ]

def insert (t : Table κ β) (k : κ) (v : β) : Table κ β := ⟨Function.update t.get k (some v)⟩

def remove (t : Table κ β) (k : κ) : Table κ β := ⟨Function.update t.get k none⟩

/-- Replace the value stored under a key; an absent key stays absent. -/
def modify (t : Table κ β) (k : κ) (f : β → β) : Table κ β :=
  ⟨Function.update t.get k ((t.get k).map f)⟩

theorem get_insert (t : Table κ β) (k k' : κ) (v : β) :
    (t.insert k v).get k' = if k' = k then some v else t.get k' := by
  simp [insert, Function.update_apply]

@[simp] theorem get_insert_self (t : Table κ β) (k : κ) (v : β) :
    (t.insert k v).get k = some v := by simp [get_insert]

@[simp] theorem get_insert_of_ne (t : Table κ β) {k k' : κ} (v : β) (h : k' ≠ k) :
    (t.insert k v).get k' = t.get k' := by simp [get_insert, h]

theorem get_remove (t : Table κ β) (k k' : κ) :
    (t.remove k).get k' = if k' = k then none else t.get k' := by
  simp [remove, Function.update_apply]

@[simp] theorem get_remove_self (t : Table κ β) (k : κ) : (t.remove k).get k = none := by
  simp [get_remove]

@[simp] theorem get_remove_of_ne (t : Table κ β) {k k' : κ} (h : k' ≠ k) :
    (t.remove k).get k' = t.get k' := by simp [get_remove, h]

theorem get_modify (t : Table κ β) (k k' : κ) (f : β → β) :
    (t.modify k f).get k' = if k' = k then (t.get k).map f else t.get k' := by
  simp [modify, Function.update_apply]

@[simp] theorem get_modify_self (t : Table κ β) (k : κ) (f : β → β) :
    (t.modify k f).get k = (t.get k).map f := by simp [get_modify]

@[simp] theorem get_modify_of_ne (t : Table κ β) {k k' : κ} (f : β → β) (h : k' ≠ k) :
    (t.modify k f).get k' = t.get k' := by simp [get_modify, h]

/-- Overwriting a present key is a modification. -/
theorem insert_eq_modify (t : Table κ β) (k : κ) (v : β) (f : β → β) (w : β)
    (hw : t.get k = some w) (hv : f w = v) : t.insert k v = t.modify k f := by
  ext1; funext k'
  by_cases h : k' = k
  · subst h; simp [hw, hv]
  · simp [h]

/-- Storing what is stored changes nothing. -/
theorem insert_of_get_eq (t : Table κ β) (k : κ) (v : β) (h : t.get k = some v) :
    t.insert k v = t := by
  ext1; funext k'
  by_cases hk : k' = k
  · subst hk; simp [h]
  · simp [hk]

/-- Removing an absent key changes nothing. -/
theorem remove_of_get_none (t : Table κ β) (k : κ) (h : t.get k = none) : t.remove k = t := by
  ext1; funext k'
  by_cases hk : k' = k
  · subst hk; simp [h]
  · simp [hk]

/-- One modification of several keys, in any order. -/
theorem modify_comm (t : Table κ β) (k k' : κ) (f : β → β) :
    (t.modify k f).modify k' f = (t.modify k' f).modify k f := by
  ext1; funext j
  by_cases same : k = k'
  · rw [same]
  · have other : k' ≠ k := Ne.symm same
    simp only [get_modify]
    by_cases here : j = k
    · subst here
      simp [same]
    · simp [here, other]

end Table

/-- One order in which a hash set may yield its elements. -/
structure HashOrder (α : Type*) where
  list : Finset α → List α
  nodup : ∀ s, (list s).Nodup
  mem_list : ∀ s a, a ∈ list s ↔ a ∈ s

namespace HashOrder
variable {α : Type*}

noncomputable def choice : HashOrder α where
  list := Finset.toList
  nodup := Finset.nodup_toList
  mem_list _ _ := Finset.mem_toList

@[simp] theorem list_singleton (o : HashOrder α) (a : α) : o.list {a} = [a] := by
  have same : (o.list {a}).Perm [a] := by
    refine (List.perm_ext_iff_of_nodup (o.nodup _) (List.nodup_singleton a)).mpr fun b => ?_
    rw [o.mem_list, Finset.mem_singleton, List.mem_singleton]
  exact List.perm_singleton.mp same

theorem perm (o o' : HashOrder α) (s : Finset α) : (o.list s).Perm (o'.list s) :=
  (List.perm_ext_iff_of_nodup (o.nodup s) (o'.nodup s)).mpr fun a => by
    rw [o.mem_list, o'.mem_list]

/-- A loop whose turns commute does not show the order. -/
theorem foldl_eq {β : Type*} (o o' : HashOrder α) (s : Finset α) {f : β → α → β}
    (comm : ∀ b x y, f (f b x) y = f (f b y) x) (b : β) :
    (o.list s).foldl f b = (o'.list s).foldl f b :=
  (o.perm o' s).foldl_eq' (fun x _ y _ b => comm b x y) b

end HashOrder
end TinyKeeper
