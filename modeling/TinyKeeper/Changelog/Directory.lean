import TinyKeeper.Changelog.WalStore

/-! The log directory as the file system lists it: names and contents, in any order. The name of a
segment file carries its first index. -/
namespace TinyKeeper
variable {α : Type*}

def segmentName (firstIndex : ℕ) : String :=
  String.ofList ("changelog_".toList ++ Nat.toDigits 10 firstIndex ++ ".bin".toList)

/-- `u64::from_str`: decimal digits behind an optional plus sign, and no overflow. -/
def parseU64 (text : List Char) : Option ℕ :=
  let digits :=
    match text with
    | '+' :: digits => digits
    | digits => digits
  if digits = [] ∨ ¬ digits.all Char.isDigit then none
  else
    let value := Nat.ofDigitChars 10 digits 0
    if value < 2 ^ 64 then some value else none

def parseSegmentName (name : String) : Option ℕ := do
  let rest ← "changelog_".toList.isPrefixOf? name.toList
  let digits ← ".bin".toList.isSuffixOf? rest
  parseU64 digits

/-- The scan at the start of `open`; a file whose name does not parse is skipped. -/
def scanDir (listing : List (String × List α)) : Segments α :=
  listing.foldl (fun segments file =>
    match parseSegmentName file.1 with
    | some firstIndex => segments.insert firstIndex file.2
    | none => segments) .empty

/-- The files of the segments. -/
def filesOf (segments : Segments α) : List (String × List α) :=
  segments.entries.map fun e => (segmentName e.1, e.2)

theorem isPrefixOf?_append [DecidableEq α] (a b : List α) : a.isPrefixOf? (a ++ b) = some b := by
  induction a with
  | nil => rfl
  | cons x a ih => simp [List.isPrefixOf?, ih]

theorem isSuffixOf?_append [DecidableEq α] (a b : List α) : a.isSuffixOf? (b ++ a) = some b := by
  rw [List.isSuffixOf?, List.reverse_append, isPrefixOf?_append]
  simp

theorem isDigit_of_mem_toDigits {c : Char} {n : ℕ} (h : c ∈ Nat.toDigits 10 n) : c.isDigit = true :=
  Nat.isDigit_of_mem_toDigits (by omega) (by omega) h

theorem parseU64_toDigits {n : ℕ} (h : n < 2 ^ 64) : parseU64 (Nat.toDigits 10 n) = some n := by
  have digits : (Nat.toDigits 10 n).all Char.isDigit = true :=
    List.all_eq_true.mpr fun c mem => isDigit_of_mem_toDigits mem
  have unsigned : ∀ rest, Nat.toDigits 10 n ≠ '+' :: rest := by
    intro rest signed
    have plus : '+' ∈ Nat.toDigits 10 n := by simp [signed]
    have := isDigit_of_mem_toDigits plus
    revert this
    decide
  unfold parseU64
  split
  · rename_i rest signed
    exact absurd signed (unsigned rest)
  · simp only [digits, Nat.toDigits_ne_nil, Nat.ofDigitChars_ten_toDigits, h]
    simp

theorem toList_segmentName (n : ℕ) : (segmentName n).toList =
    "changelog_".toList ++ (Nat.toDigits 10 n ++ ".bin".toList) := by
  unfold segmentName
  rw [String.toList_ofList]
  apply List.append_assoc

/-- A segment file is found again under its first index. -/
theorem parseSegmentName_segmentName {n : ℕ} (h : n < 2 ^ 64) :
    parseSegmentName (segmentName n) = some n := by
  unfold parseSegmentName
  rw [toList_segmentName, isPrefixOf?_append, Option.bind_eq_bind, Option.bind_some,
    isSuffixOf?_append, Option.bind_some, parseU64_toDigits h]

theorem mem_scanDir {listing : List (String × List α)} {keys : List (ℕ × List α)}
    (names : listing.map (fun file => (parseSegmentName file.1, file.2)) =
      keys.map (fun e => (some e.1, e.2)))
    (distinct : (keys.map Prod.fst).Nodup) (e : ℕ × List α) :
    e ∈ (scanDir listing).entries ↔ e ∈ keys := by
  induction keys using List.reverseRecOn generalizing listing e with
  | nil =>
    obtain rfl : listing = [] := by simpa using names
    simp [scanDir, BTreeMap.empty]
  | append_singleton keys k ih =>
    obtain ⟨front, file, rfl⟩ : ∃ front file, listing = front ++ [file] := by
      refine (List.eq_nil_or_concat' listing).resolve_left ?_
      rintro rfl
      simp at names
    simp only [List.map_append, List.map_cons, List.map_nil] at names
    obtain ⟨names, last⟩ := List.append_inj' names rfl
    simp only [List.cons.injEq, Prod.mk.injEq, and_true] at last
    have grown : scanDir (front ++ [file]) = (scanDir front).insert k.1 file.2 := by
      simp [scanDir, last.1]
    rw [List.map_append, List.nodup_append] at distinct
    have fresh : ∀ e ∈ keys, e.1 ≠ k.1 := by
      intro e mem
      exact distinct.2.2 e.1 (List.mem_map_of_mem mem) k.1 (by simp)
    rw [grown, BTreeMap.mem_insert, ih names distinct.1, List.mem_append, List.mem_singleton,
      last.2]
    constructor
    · rintro (rfl | ⟨mem, -⟩)
      · exact .inr rfl
      · exact .inl mem
    · rintro (mem | rfl)
      · exact .inr ⟨mem, fresh e mem⟩
      · exact .inl rfl

/-- However the files of a log are listed, the scan finds its segments. -/
theorem scanDir_of_perm {segments : Segments α} (small : ∀ e ∈ segments.entries, e.1 < 2 ^ 64)
    {listing : List (String × List α)} (perm : listing.Perm (filesOf segments)) :
    scanDir listing = segments := by
  obtain ⟨keys, hkeys⟩ : ∃ keys : List (ℕ × List α),
      keys = listing.map fun file => ((parseSegmentName file.1).getD 0, file.2) := ⟨_, rfl⟩
  have order : keys.Perm segments.entries := by
    have found : (filesOf segments).map
        (fun file => ((parseSegmentName file.1).getD 0, file.2)) = segments.entries := by
      rw [filesOf, List.map_map]
      refine (List.map_congr_left ?_).trans (List.map_id _)
      intro e mem
      simp [parseSegmentName_segmentName (small e mem)]
    rw [hkeys, ← found]
    exact perm.map _
  have names : listing.map (fun file => (parseSegmentName file.1, file.2)) =
      keys.map (fun e => (some e.1, e.2)) := by
    rw [hkeys, List.map_map]
    apply List.map_congr_left
    intro file mem
    obtain ⟨e, he, rfl⟩ := List.mem_map.mp (perm.subset mem)
    simp [parseSegmentName_segmentName (small e he)]
  have sortedKeys : (segments.entries.map Prod.fst).Nodup := by
    rw [List.Nodup, List.pairwise_map]
    exact segments.sorted.imp fun lt => lt.ne
  have distinct : (keys.map Prod.fst).Nodup := (order.map Prod.fst).nodup_iff.mpr sortedKeys
  apply BTreeMap.ext_mem
  intro e
  rw [mem_scanDir names distinct e, order.mem_iff]

end TinyKeeper
