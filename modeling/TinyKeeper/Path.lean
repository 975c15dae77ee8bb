import TinyKeeper.Lib.Digits
import TinyKeeper.Lib.SplitLast

/-! Node paths: the parent computed by `rsplit_once`, and the suffix of sequential names. -/
namespace TinyKeeper

/-- `path.rsplit_once("/")`. -/
def splitPath (path : String) : Option (String × String) := rsplitOnce '/' path

/-- The part before the last slash stands for the root when it is empty. -/
def parentPath (parent : String) : String := if parent = "" then "/" else parent

/-- The computed parent of a path and its last component. -/
def parentOf (path : String) : Option (String × String) :=
  (splitPath path).map fun pc => (parentPath pc.1, pc.2)

/-- `format!("{:010}", n)`: decimal, padded with zeros to ten characters, the sign counting
as one of them. -/
def formatSeq (n : Int32) : String :=
  let digits := Nat.toDigits 10 n.toInt.natAbs
  if n.toInt < 0 then String.ofList ('-' :: digits.leftpad 9 '0')
  else String.ofList (digits.leftpad 10 '0')

theorem splitPath_eq_some_iff (path p c : String) :
    splitPath path = some (p, c) ↔ path = p ++ "/" ++ c ∧ '/' ∉ c.toList := by
  rw [splitPath, rsplitOnce_eq_some_iff, ← String.toList_inj]
  simp [String.toList_append]

theorem parentOf_eq_some_iff (path q c : String) :
    parentOf path = some (q, c) ↔ ∃ p, splitPath path = some (p, c) ∧ parentPath p = q := by
  simp only [parentOf, Option.map_eq_some_iff, Prod.mk.injEq]
  constructor
  · rintro ⟨⟨p, d⟩, h, hq, rfl⟩
    exact ⟨p, h, hq⟩
  · rintro ⟨p, h, hq⟩
    exact ⟨(p, c), h, hq, rfl⟩

theorem parentOf_det {path q q' c c' : String} (h : parentOf path = some (q, c))
    (h' : parentOf path = some (q', c')) : q' = q ∧ c' = c :=
  Prod.mk.inj (Option.some.inj (h'.symm.trans h))

/-- A child of the root is spelled with one slash or with two; below any other node the
spelling is determined. -/
theorem parentOf_spelling {path q c : String} (h : parentOf path = some (q, c)) :
    (q = "/" ∧ (path = "/" ++ c ∨ path = "//" ++ c)) ∨ (q ≠ "/" ∧ path = q ++ "/" ++ c) := by
  obtain ⟨p, hp, rfl⟩ := (parentOf_eq_some_iff _ _ _).mp h
  obtain ⟨rfl, _⟩ := (splitPath_eq_some_iff _ _ _).mp hp
  by_cases he : p = ""
  · left
    subst he
    exact ⟨rfl, .inl (by simp)⟩
  · by_cases hr : p = "/"
    · left
      subst hr
      exact ⟨rfl, .inr (by simp)⟩
    · right
      simp [parentPath, he, hr]

theorem parentOf_unique {path path' q c : String} (hq : q ≠ "/")
    (h : parentOf path = some (q, c)) (h' : parentOf path' = some (q, c)) : path = path' := by
  obtain ⟨hr, _⟩ | ⟨_, rfl⟩ := parentOf_spelling h
  · exact absurd hr hq
  · obtain ⟨hr, _⟩ | ⟨_, rfl⟩ := parentOf_spelling h'
    · exact absurd hr hq
    · rfl

/-- The root is its own computed parent, with an empty last component. -/
theorem parentOf_root : parentOf "/" = some ("/", "") := by decide

theorem parentOf_length_lt {path q c : String} (h : parentOf path = some (q, c)) (hc : c ≠ "") :
    q.length < path.length := by
  have hl : c.length ≠ 0 := by simpa using hc
  have h1 : String.length "/" = 1 := rfl
  have h2 : String.length "//" = 2 := rfl
  obtain ⟨rfl, rfl | rfl⟩ | ⟨_, rfl⟩ := parentOf_spelling h <;>
    simp only [String.length_append] <;> omega

/-- No node with a name is its own parent. -/
theorem parentOf_ne {path q c : String} (h : parentOf path = some (q, c)) (hc : c ≠ "") :
    q ≠ path := by
  rintro rfl
  exact absurd (parentOf_length_lt h hc) (Nat.lt_irrefl _)

theorem parentOf_ne_root {path q c : String} (h : parentOf path = some (q, c)) (hc : c ≠ "") :
    path ≠ "/" := by
  rintro rfl
  exact hc (parentOf_det parentOf_root h).2

theorem not_slash_mem_formatSeq (n : Int32) : '/' ∉ (formatSeq n).toList := by
  have hd : '/' ∉ Nat.toDigits 10 n.toInt.natAbs := fun h => by
    have := Nat.isDigit_of_mem_toDigits (by decide) (by decide) h
    revert this
    decide
  unfold formatSeq
  split_ifs <;> simp [List.leftpad, hd]

/-- Below 2^31 the suffix is the number with ten digits. -/
theorem formatSeq_ofNat {n : ℕ} (small : n < 2 ^ 31) :
    formatSeq (Int32.ofNat n) = String.ofList (padded 10 n) := by
  have value : (Int32.ofNat n).toInt = n := Int32.toInt_ofNat_of_lt small
  have sign : ¬ ((n : Int) < 0) := Int.not_lt.mpr (Int.natCast_nonneg n)
  rw [formatSeq]
  simp only [value, if_neg sign, Int.natAbs_natCast]
  rfl

/-- A suffix lengthens the last component and keeps the parent. -/
theorem parentOf_append {path q c : String} (t : String) (h : parentOf path = some (q, c))
    (ht : '/' ∉ t.toList) : parentOf (path ++ t) = some (q, c ++ t) := by
  obtain ⟨p, hp, hq⟩ := (parentOf_eq_some_iff _ _ _).mp h
  exact (parentOf_eq_some_iff _ _ _).mpr ⟨p, rsplitOnce_append '/' t hp ht, hq⟩

example : formatSeq 42 = "0000000042" := by decide
example : formatSeq (-42) = "-000000042" := by decide
example : parentOf "//a" = parentOf "/a" := by decide

end TinyKeeper
