import Mathlib.Data.List.Pairwise
import Mathlib.Order.Lattice

/-! Ordered maps as strictly sorted association lists. The order of the entries is the order in
which an iteration or a range query yields them. -/
namespace TinyKeeper

/-- The entries stand in strictly increasing key order, so every key occurs once. -/
structure BTreeMap (κ β : Type*) [LinearOrder κ] where
  entries : List (κ × β)
  sorted : entries.Pairwise (fun a b => a.1 < b.1)

namespace BTreeMap
variable {κ β : Type*} [LinearOrder κ]

/-- Put an entry at its place, overwriting the value of an equal key. -/
def insertEntry (k : κ) (v : β) : List (κ × β) → List (κ × β)
  | [] => [(k, v)]
  | e :: rest =>
    if k < e.1 then (k, v) :: e :: rest
    else if k = e.1 then (k, v) :: rest
    else e :: insertEntry k v rest

theorem key_mem_insertEntry (k : κ) (v : β) (l : List (κ × β)) (e : κ × β)
    (h : e ∈ insertEntry k v l) : e = (k, v) ∨ e ∈ l := by
  induction l with
  | nil => simpa [insertEntry] using h
  | cons d rest ih =>
    simp only [insertEntry] at h
    split_ifs at h with hlt heq
    · simpa using h
    · obtain h | h := List.mem_cons.mp h
      · exact .inl h
      · exact .inr (List.mem_cons_of_mem _ h)
    · obtain h | h := List.mem_cons.mp h
      · exact .inr (by simp [h])
      · exact (ih h).imp_right (List.mem_cons_of_mem _)

theorem insertEntry_sorted (k : κ) (v : β) (l : List (κ × β))
    (h : l.Pairwise (fun a b => a.1 < b.1)) :
    (insertEntry k v l).Pairwise (fun a b => a.1 < b.1) := by
  induction l with
  | nil => simp [insertEntry]
  | cons d rest ih =>
    obtain ⟨hd, hr⟩ := List.pairwise_cons.mp h
    simp only [insertEntry]
    split_ifs with hlt heq
    · refine List.pairwise_cons.mpr ⟨?_, h⟩
      intro e he
      obtain rfl | he := List.mem_cons.mp he
      · exact hlt
      · exact hlt.trans (hd e he)
    · exact List.pairwise_cons.mpr ⟨fun e he => by simpa [heq] using hd e he, hr⟩
    · refine List.pairwise_cons.mpr ⟨?_, ih hr⟩
      intro e he
      obtain rfl | he := key_mem_insertEntry k v rest e he
      · exact lt_of_le_of_ne (not_lt.mp hlt) (Ne.symm heq)
      · exact hd e he

theorem mem_insertEntry (k : κ) (v : β) (l : List (κ × β))
    (h : l.Pairwise (fun a b => a.1 < b.1)) (e : κ × β) :
    e ∈ insertEntry k v l ↔ e = (k, v) ∨ (e ∈ l ∧ e.1 ≠ k) := by
  induction l with
  | nil => simp [insertEntry]
  | cons d rest ih =>
    obtain ⟨hd, hr⟩ := List.pairwise_cons.mp h
    simp only [insertEntry]
    split_ifs with hlt heq
    · have hne : ∀ e ∈ d :: rest, e.1 ≠ k := by
        intro e he
        obtain rfl | he := List.mem_cons.mp he
        · exact hlt.ne'
        · exact (hlt.trans (hd e he)).ne'
      rw [List.mem_cons]
      exact or_congr_right ⟨fun he => ⟨he, hne e he⟩, And.left⟩
    · have hne : ∀ e ∈ rest, e.1 ≠ k := fun e he => by
        rw [heq]
        exact (hd e he).ne'
      rw [List.mem_cons, List.mem_cons]
      refine or_congr_right ⟨fun he => ⟨.inr he, hne e he⟩, ?_⟩
      rintro ⟨rfl | he, hk⟩
      · exact absurd heq.symm hk
      · exact he
    · rw [List.mem_cons, List.mem_cons, ih hr]
      constructor
      · rintro (rfl | rfl | ⟨he, hk⟩)
        · exact .inr ⟨.inl rfl, Ne.symm heq⟩
        · exact .inl rfl
        · exact .inr ⟨.inr he, hk⟩
      · rintro (rfl | ⟨rfl | he, hk⟩)
        · exact .inr (.inl rfl)
        · exact .inl rfl
        · exact .inr (.inr ⟨he, hk⟩)

/-- A key above all others is put at the end. -/
theorem insertEntry_of_forall_lt (k : κ) (v : β) (l : List (κ × β)) (h : ∀ e ∈ l, e.1 < k) :
    insertEntry k v l = l ++ [(k, v)] := by
  induction l with
  | nil => rfl
  | cons d rest ih =>
    have hd : d.1 < k := h d (by simp)
    simp [insertEntry, hd.not_gt, hd.ne', ih (fun e he => h e (by simp [he]))]

def empty : BTreeMap κ β := ⟨[], List.Pairwise.nil⟩

def insert (m : BTreeMap κ β) (k : κ) (v : β) : BTreeMap κ β :=
  ⟨insertEntry k v m.entries, insertEntry_sorted k v _ m.sorted⟩

def remove (m : BTreeMap κ β) (k : κ) : BTreeMap κ β :=
  ⟨m.entries.filter (fun e => e.1 ≠ k), m.sorted.filter _⟩

/-- Replace the value stored under a key; an absent key stays absent. -/
def modify (m : BTreeMap κ β) (k : κ) (f : β → β) : BTreeMap κ β :=
  ⟨m.entries.map (fun e => if e.1 = k then (e.1, f e.2) else e), by
    refine (List.pairwise_map).mpr (m.sorted.imp ?_)
    intro a b hab
    split_ifs <;> exact hab⟩

def get? (m : BTreeMap κ β) (k : κ) : Option β :=
  (m.entries.find? (fun e => e.1 = k)).map Prod.snd

/-- The entries with keys up to `hi`, in key order. -/
def upTo (m : BTreeMap κ β) (hi : κ) : List (κ × β) := m.entries.filter (fun e => e.1 ≤ hi)

def lastKeyValue (m : BTreeMap κ β) : Option (κ × β) := m.entries.getLast?

theorem value_unique (m : BTreeMap κ β) {k : κ} {v w : β} (hv : (k, v) ∈ m.entries)
    (hw : (k, w) ∈ m.entries) : v = w := by
  have sorted := List.pairwise_iff_getElem.mp m.sorted
  obtain ⟨i, hi, ei⟩ := List.getElem_of_mem hv
  obtain ⟨j, hj, ej⟩ := List.getElem_of_mem hw
  obtain h | h | h := Nat.lt_trichotomy i j
  · have := sorted i j hi hj h
    simp [ei, ej] at this
  · subst h
    exact (Prod.mk.inj (ei.symm.trans ej)).2
  · have := sorted j i hj hi h
    simp [ei, ej] at this

theorem get?_eq_some_iff (m : BTreeMap κ β) (k : κ) (v : β) :
    m.get? k = some v ↔ (k, v) ∈ m.entries := by
  constructor
  · intro h
    obtain ⟨⟨k', v'⟩, hf, rfl⟩ := Option.map_eq_some_iff.mp h
    have hk := List.find?_some hf
    simp only [decide_eq_true_eq] at hk
    subst hk
    exact List.mem_of_find?_eq_some hf
  · intro h
    cases hf : m.entries.find? (fun e => e.1 = k) with
    | none =>
      have := List.find?_eq_none.mp hf (k, v) h
      simp at this
    | some e =>
      have hk := List.find?_some hf
      simp only [decide_eq_true_eq] at hk
      obtain ⟨k', v'⟩ := e
      subst hk
      simp [get?, hf, m.value_unique (List.mem_of_find?_eq_some hf) h]

theorem mem_insert (m : BTreeMap κ β) (k : κ) (v : β) (e : κ × β) :
    e ∈ (m.insert k v).entries ↔ e = (k, v) ∨ (e ∈ m.entries ∧ e.1 ≠ k) :=
  mem_insertEntry k v m.entries m.sorted e

theorem get?_insert (m : BTreeMap κ β) (k k' : κ) (v : β) :
    (m.insert k v).get? k' = if k' = k then some v else m.get? k' := by
  ext w
  rw [get?_eq_some_iff, mem_insert]
  split_ifs with h
  · subst h; simp [eq_comm]
  · simp [h, get?_eq_some_iff]

theorem get?_remove (m : BTreeMap κ β) (k k' : κ) :
    (m.remove k).get? k' = if k' = k then none else m.get? k' := by
  ext w
  rw [get?_eq_some_iff]
  split_ifs with h
  · simp [remove, h]
  · simp [remove, h, get?_eq_some_iff]

@[simp] theorem get?_empty (k : κ) : (empty : BTreeMap κ β).get? k = none := rfl

theorem mem_upTo (m : BTreeMap κ β) (hi k : κ) (v : β) :
    (k, v) ∈ m.upTo hi ↔ m.get? k = some v ∧ k ≤ hi := by
  simp [upTo, get?_eq_some_iff]

/-- Two maps with the same entries are the same. -/
theorem ext_mem {m m' : BTreeMap κ β} (h : ∀ e, e ∈ m.entries ↔ e ∈ m'.entries) : m = m' := by
  have nodup (m : BTreeMap κ β) : m.entries.Nodup := by
    refine m.sorted.imp ?_
    rintro a b lt rfl
    exact lt.false
  have perm : m.entries.Perm m'.entries := (List.perm_ext_iff_of_nodup (nodup m) (nodup m')).mpr h
  have same : m.entries = m'.entries :=
    perm.eq_of_pairwise (fun a b _ _ ab ba => absurd ab ba.not_gt) m.sorted m'.sorted
  cases m
  cases m'
  cases same
  rfl

theorem key_lt_of_entries_eq (m : BTreeMap κ β) {l : List (κ × β)} {k : κ} {v : β}
    (h : m.entries = l ++ [(k, v)]) : ∀ e ∈ l, e.1 < k := by
  have sorted := m.sorted
  rw [h, List.pairwise_append] at sorted
  intro e he
  exact sorted.2.2 e he (k, v) (by simp)

/-- Modifying the last entry leaves the others alone. -/
theorem entries_modify_last (m : BTreeMap κ β) {l : List (κ × β)} {k : κ} {v : β} (f : β → β)
    (h : m.entries = l ++ [(k, v)]) : (m.modify k f).entries = l ++ [(k, f v)] := by
  have others : l.map (fun e => if e.1 = k then (e.1, f e.2) else e) = l := by
    refine (List.map_congr_left ?_).trans (List.map_id l)
    intro e he
    exact if_neg (m.key_lt_of_entries_eq h e he).ne
  simp only [modify, h, List.map_append, others]
  simp

theorem entries_insert_of_forall_lt (m : BTreeMap κ β) (k : κ) (v : β)
    (h : ∀ e ∈ m.entries, e.1 < k) : (m.insert k v).entries = m.entries ++ [(k, v)] :=
  insertEntry_of_forall_lt k v m.entries h

/-- The keys up to a bound come first. -/
theorem entries_eq_upTo_append (m : BTreeMap κ β) (hi : κ) :
    m.entries = m.upTo hi ++ m.entries.filter (fun e => hi < e.1) := by
  obtain ⟨entries, sorted⟩ := m
  simp only [upTo]
  induction entries with
  | nil => rfl
  | cons e rest ih =>
    obtain ⟨above, sorted⟩ := List.pairwise_cons.mp sorted
    by_cases low : e.1 ≤ hi
    · rw [List.filter_cons_of_pos (by simpa using low),
        List.filter_cons_of_neg (by simpa using low), List.cons_append, ← ih sorted]
    · have high : ∀ d ∈ e :: rest, hi < d.1 := by
        intro d mem
        obtain rfl | mem := List.mem_cons.mp mem
        · exact not_le.mp low
        · exact (not_le.mp low).trans (above d mem)
      have none : (e :: rest).filter (fun d => d.1 ≤ hi) = [] :=
        List.filter_eq_nil_iff.mpr fun d mem => by simpa using high d mem
      have all : (e :: rest).filter (fun d => hi < d.1) = e :: rest :=
        List.filter_eq_self.mpr fun d mem => by simpa using high d mem
      rw [none, all, List.nil_append]

theorem upTo_eq_entries (m : BTreeMap κ β) {hi : κ} (h : ∀ e ∈ m.entries, e.1 ≤ hi) :
    m.upTo hi = m.entries :=
  List.filter_eq_self.mpr fun e mem => by simpa using h e mem

/-- What is put above a bound does not show below it. -/
theorem upTo_insert_of_lt (m : BTreeMap κ β) {hi k : κ} (v : β) (h : hi < k) :
    (m.insert k v).upTo hi = m.upTo hi := by
  simp only [upTo, insert]
  induction m.entries with
  | nil => simp [insertEntry, h]
  | cons e rest ih =>
    simp only [insertEntry]
    split_ifs with below same
    · rw [List.filter_cons_of_neg (by simpa using h)]
    · rw [List.filter_cons_of_neg (by simpa using h),
        List.filter_cons_of_neg (by simpa [← same] using h)]
    · by_cases low : e.1 ≤ hi
      · rw [List.filter_cons_of_pos (by simpa using low),
          List.filter_cons_of_pos (by simpa using low), ih]
      · rw [List.filter_cons_of_neg (by simpa using low),
          List.filter_cons_of_neg (by simpa using low), ih]

theorem upTo_modify_of_lt (m : BTreeMap κ β) {hi k : κ} (f : β → β) (h : hi < k) :
    (m.modify k f).upTo hi = m.upTo hi := by
  simp only [upTo, modify]
  induction m.entries with
  | nil => rfl
  | cons e rest ih =>
    rw [List.map_cons]
    by_cases low : e.1 ≤ hi
    · rw [if_neg (low.trans_lt h).ne, List.filter_cons_of_pos (by simpa using low),
        List.filter_cons_of_pos (by simpa using low), ih]
    · have key : (if e.1 = k then (e.1, f e.2) else e).1 = e.1 := by split_ifs <;> rfl
      rw [List.filter_cons_of_neg (by simpa [key] using low),
        List.filter_cons_of_neg (by simpa using low), ih]

end BTreeMap
end TinyKeeper
