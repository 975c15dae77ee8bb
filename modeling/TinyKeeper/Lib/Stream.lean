import TinyKeeper.Lib.Codec
import TinyKeeper.Lib.Reader

/-! Readers on a stream that is still arriving. A reader that does not look at how much is left
reads the same value once more has arrived, and one that runs past the end waits. -/
namespace TinyKeeper
variable {σ ε α β : Type} {ρ : Type*}

namespace Reader

/-- What follows in the buffer does not change what is read. -/
def Steady (r : Reader σ ε α) : Prop :=
  ∀ buf a rest later, r.Reads buf a rest → r.Reads (buf ++ later) a (rest ++ later)

/-- Every value takes a symbol at least. -/
def Consumes (r : Reader σ ε α) : Prop :=
  ∀ buf a rest, r.Reads buf a rest → rest.length < buf.length

theorem steady_pure (a : α) : (pure a : Reader σ ε α).Steady := by
  intro buf a' rest later reads
  obtain ⟨same, rfl⟩ := reads_pure_iff.mp reads
  exact reads_pure_iff.mpr ⟨same, rfl⟩

theorem steady_take (n : ℕ) (e : ε) : (take n e : Reader σ ε (List σ)).Steady := by
  intro buf front rest later reads
  obtain ⟨rfl, length⟩ := reads_take_iff.mp reads
  exact reads_take_iff.mpr ⟨List.append_assoc _ _ _, length⟩

theorem Steady.bind {r : Reader σ ε α} {f : α → Reader σ ε β} (first : r.Steady)
    (next : ∀ a, (f a).Steady) : (r >>= f).Steady := by
  intro buf b rest later reads
  obtain ⟨a, middle, reads, reads'⟩ := reads_bind_iff.mp reads
  exact reads_bind_iff.mpr
    ⟨a, middle ++ later, first _ _ _ later reads, next a _ _ _ later reads'⟩

end Reader

/-- The records that a reader takes off a stream. -/
def Codec.ofReader (r : Reader σ ε α) (encode : ρ → List σ) (consumes : r.Consumes) :
    Codec σ ρ α Unit where
  encode := encode
  decode s :=
    match r s with
    | .ok (some a, rest) => .ok (some (a, rest))
    | _ => .ok none
  progress s a rest h := by
    apply consumes s a rest
    rw [Reader.Reads]
    split at h
    next found =>
      obtain ⟨rfl, rfl⟩ := Prod.mk.inj (Option.some.inj (Except.ok.inj h))
      exact found
    next => cases h

variable {r : Reader σ ε α} {encode : ρ → List σ} {consumes : r.Consumes}

theorem Codec.ofReader_decode_iff {s rest : List σ} {a : α} :
    (ofReader r encode consumes).decode s = .ok (some (a, rest)) ↔ r.Reads s a rest := by
  constructor
  · intro h
    simp only [ofReader] at h
    split at h
    next found =>
      obtain ⟨rfl, rfl⟩ := Prod.mk.inj (Option.some.inj (Except.ok.inj h))
      exact found
    next => cases h
  · intro reads
    simp only [ofReader]
    rw [Reader.Reads] at reads
    rw [reads]

/-- It finds a record or waits. -/
theorem Codec.ofReader_decode_none {s : List σ} (waits : ∀ a rest, ¬ r.Reads s a rest) :
    (ofReader r encode consumes).decode s = .ok none := by
  simp only [ofReader]
  split
  next a rest found => exact absurd found (waits a rest)
  next => rfl

/-- A cut record cannot be read: with the rest of it, it would be read as the whole record, and
nothing would be left. -/
theorem Codec.ofReader_lawful {Fits : ρ → Prop} {view : ρ → α} (steady : r.Steady)
    (takes : ∀ x, Fits x → r.Takes (encode x) (view x)) :
    (Codec.ofReader r encode consumes).Lawful Fits view where
  decode_nil := ofReader_decode_none fun a rest reads => by
    have less := consumes _ _ _ reads
    simp at less
  decode_encode x s fits := ofReader_decode_iff.mpr (takes x fits s)
  decode_cut := by
    rintro x cut fits ⟨later, whole⟩ proper
    refine ofReader_decode_none fun a rest reads => proper ?_
    have again := steady _ _ _ later reads
    have taken := takes x fits []
    rw [whole] at again
    rw [List.append_nil] at taken
    have nothing := (again.unique taken).2
    rw [← whole, (List.append_eq_nil_iff.mp nothing).2, List.append_nil]

end TinyKeeper
