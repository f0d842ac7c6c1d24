import MiniKernel.Verified.ByteMemory

/-!
# Bytes behind an address translation

Code that runs with paging on reaches memory through a translation `tr`, which
is itself read from memory and may fail on an address.  Byte loops over such
memory are simple as long as they stay in resident addresses: `Resident` says
that the translation is defined and injective on a set of addresses and does
not depend on what these hold.  Then a loop that writes `n` bytes establishes
exactly these bytes and frames everything else (`put_spec`).
-/

namespace MiniKernel.Verified.VirtualMemory

open MiniKernel.Verified.ByteMemory

section Loops

variable (tr : Mem → Nat → Option Nat)

/-- Read the byte at a virtual address. -/
def fetchByte (m : Mem) (a : Nat) : Option UInt8 := (tr m a).map m

/-- Write the byte at a virtual address. -/
def putByte (m : Mem) (a : Nat) (b : UInt8) : Option Mem :=
  (tr m a).map fun x => setByte m x b

/-- The `n`-byte little-endian word at a virtual address. -/
def fetch (m : Mem) (a : Nat) : Nat → Option Nat
  | 0 => some 0
  | n + 1 =>
      (fetchByte tr m a).bind fun b => (fetch m (a + 1) n).map fun w => b.toNat + 256 * w

/-- Write `n` bytes from `dest` on, each computed when it is its turn. -/
def put (dest n : Nat) (byte : Mem → Nat → Option UInt8) (m : Mem) : Option Mem :=
  (List.range n).foldlM (fun m i => (byte m i).bind (putByte tr m (dest + i))) m

/-- Copy `n` bytes upwards. -/
def copy (dest src n : Nat) (m : Mem) : Option Mem :=
  put tr dest n (fun m i => fetchByte tr m (src + i)) m

/-- Fill `n` bytes. -/
def fill (dest n : Nat) (b : UInt8) (m : Mem) : Option Mem := put tr dest n (fun _ _ => some b) m

/-- The memories agree outside the places `φ` puts the addresses `V`. -/
def AgreeOff (V : Nat → Prop) (φ : Nat → Nat) (m m' : Mem) : Prop :=
  ∀ x, (∀ v, V v → φ v ≠ x) → m' x = m x

/-- The addresses `V` are backed by `φ`, whatever is written to them. -/
structure Resident (m : Mem) (V : Nat → Prop) (φ : Nat → Nat) : Prop where
  maps : ∀ v, V v → tr m v = some (φ v)
  inj : ∀ v w, V v → V w → φ v = φ w → v = w
  stable : ∀ m', AgreeOff V φ m m' → tr m' = tr m

end Loops

variable {tr : Mem → Nat → Option Nat} {m : Mem} {V : Nat → Prop} {φ : Nat → Nat}

/-- A word at addresses that translate: the word of the memory they show. -/
theorem fetch_load : ∀ {n a : Nat}, (∀ x, a ≤ x → x < a + n → tr m x = some (φ x)) →
    fetch tr m a n = some (load (fun x => m (φ x)) a n) := by
  intro n
  induction n with
  | zero => intro a _; rfl
  | succ n ih =>
      intro a h
      rw [fetch, fetchByte, h a (by omega) (by omega), Option.map_some, Option.bind_some,
        ih fun x hLow hHigh => h x (by omega) (by omega)]
      rfl

/-- A word depends on what is read at its addresses. -/
theorem fetch_congr {tr' : Mem → Nat → Option Nat} {m' : Mem} : ∀ {n a : Nat},
    (∀ k < n, fetchByte tr' m' (a + k) = fetchByte tr m (a + k)) →
      fetch tr' m' a n = fetch tr m a n := by
  intro n
  induction n with
  | zero => intro a _; rfl
  | succ n ih =>
      intro a h
      have hTail := ih (a := a + 1) fun k hk => by
        rw [show a + 1 + k = a + (k + 1) by omega]
        exact h (k + 1) (by omega)
      have hHead : fetchByte tr' m' a = fetchByte tr m a := h 0 (by omega)
      rw [fetch, fetch, hHead, hTail]

/-- A word that is read at addresses that translate to `φ`, if at all. -/
theorem fetch_eq_load : ∀ {n a w : Nat}, fetch tr m a n = some w →
    (∀ x, a ≤ x → x < a + n → ∀ y ∈ tr m x, y = φ x) → w = load (fun x => m (φ x)) a n := by
  intro n
  induction n with
  | zero =>
      intro a w hRead _
      cases hRead
      rfl
  | succ n ih =>
      intro a w hRead h
      obtain ⟨b, hByte, hRest⟩ := Option.bind_eq_some_iff.mp hRead
      obtain ⟨v, hTail, rfl⟩ := Option.map_eq_some_iff.mp hRest
      obtain ⟨y, hPlace, rfl⟩ := Option.map_eq_some_iff.mp hByte
      rw [load, ← ih hTail fun x hLow hHigh => h x (by omega) (by omega),
        h a (by omega) (by omega) y hPlace]

/-- **A loop over resident addresses** establishes its bytes and frames the
rest. -/
theorem put_spec (h : Resident tr m V φ) {dest : Nat} {byte : Mem → Nat → Option UInt8}
    {data : Nat → UInt8} : ∀ {n : Nat}, (∀ k < n, V (dest + k)) →
      (∀ m', AgreeOff V φ m m' → ∀ k < n, byte m' k = some (data k)) →
      ∃ m', put tr dest n byte m = some m' ∧ (∀ k < n, m' (φ (dest + k)) = data k) ∧
        ∀ x, (∀ k < n, φ (dest + k) ≠ x) → m' x = m x := by
  intro n
  induction n with
  | zero =>
      intro _ _
      exact ⟨m, rfl, fun k hk => absurd hk (Nat.not_lt_zero k), fun _ _ => rfl⟩
  | succ n ih =>
      intro hDest hByte
      obtain ⟨m₁, hLoop, hData, hFrame⟩ := ih (fun k hk => hDest k (by omega))
        fun m' hAgree k hk => hByte m' hAgree k (by omega)
      have hAgree : AgreeOff V φ m m₁ := fun x hx =>
        hFrame x fun k hk => hx _ (hDest k (by omega))
      have hLast : putByte tr m₁ (dest + n) (data n) =
          some (setByte m₁ (φ (dest + n)) (data n)) := by
        rw [putByte, h.stable m₁ hAgree, h.maps _ (hDest n (by omega))]
        rfl
      refine ⟨setByte m₁ (φ (dest + n)) (data n), ?_, fun k hk => ?_, fun x hx => ?_⟩
      · unfold put at hLoop ⊢
        rw [List.range_succ, List.foldlM_append, hLoop]
        simp only [List.foldlM_cons, List.foldlM_nil, Option.bind_eq_bind, Option.bind_some,
          hByte m₁ hAgree n (by omega), hLast]
        rfl
      · by_cases hEq : k = n
        · subst hEq
          exact setByte_self _ _ _
        · rw [setByte_ne]
          · exact hData k (by omega)
          · intro hSame
            have := h.inj _ _ (hDest k hk) (hDest n (by omega)) hSame
            omega
      · rw [setByte_ne _ (hx n (by omega)).symm]
        exact hFrame x fun k hk => hx k (by omega)

/-- Copying from a place that is not resident. -/
theorem copy_spec (h : Resident tr m V φ) (dest src n : Nat) (data : Nat → UInt8)
    (hDest : ∀ k < n, V (dest + k))
    (hSrc : ∀ k < n, ∃ x, tr m (src + k) = some x ∧ m x = data k ∧ ∀ v, V v → φ v ≠ x) :
    ∃ m', copy tr dest src n m = some m' ∧ (∀ k < n, m' (φ (dest + k)) = data k) ∧
      ∀ x, (∀ k < n, φ (dest + k) ≠ x) → m' x = m x := by
  apply put_spec h hDest
  intro m' hAgree k hk
  obtain ⟨x, hx, hData, hApart⟩ := hSrc k hk
  rw [fetchByte, h.stable m' hAgree, hx, Option.map_some, hAgree x hApart, hData]

theorem fill_spec (h : Resident tr m V φ) (dest n : Nat) (b : UInt8)
    (hDest : ∀ k < n, V (dest + k)) :
    ∃ m', fill tr dest n b m = some m' ∧ (∀ k < n, m' (φ (dest + k)) = b) ∧
      ∀ x, (∀ k < n, φ (dest + k) ≠ x) → m' x = m x :=
  put_spec h hDest fun _ _ _ _ => rfl

/-- **The frame of a loop.**  As long as a loop writes to places in `S`, which the
translation does not depend on, everything outside `S` stays. -/
theorem put_frame {S : Nat → Prop} {dest : Nat} {byte : Mem → Nat → Option UInt8}
    (hStable : ∀ m', (∀ x, ¬S x → m' x = m x) → tr m' = tr m) :
    ∀ {n : Nat} {m' : Mem}, (∀ k < n, ∀ x ∈ tr m (dest + k), S x) →
      put tr dest n byte m = some m' → ∀ x, ¬S x → m' x = m x := by
  intro n
  induction n with
  | zero =>
      intro m' _ hRun
      cases hRun
      exact fun _ _ => rfl
  | succ n ih =>
      intro m' hDest hRun
      unfold put at ih hRun
      rw [List.range_succ, List.foldlM_append] at hRun
      obtain ⟨m₁, hLoop, hLast⟩ := Option.bind_eq_some_iff.mp hRun
      have hFrame := ih (fun k hk => hDest k (by omega)) hLoop
      simp only [List.foldlM_cons, List.foldlM_nil, Option.bind_eq_bind] at hLast
      obtain ⟨m₂, hWrite, hEq⟩ := Option.bind_eq_some_iff.mp hLast
      cases hEq
      obtain ⟨b, -, hPut⟩ := Option.bind_eq_some_iff.mp hWrite
      obtain ⟨y, hPlace, rfl⟩ := Option.map_eq_some_iff.mp hPut
      rw [hStable m₁ hFrame] at hPlace
      intro x hx
      rw [setByte_ne]
      · exact hFrame x hx
      · rintro rfl
        exact hx (hDest n (by omega) _ hPlace)

end MiniKernel.Verified.VirtualMemory
