import Cpp20Showcase.Lib.Atomic
import Mathlib.Tactic.Ring
import Mathlib.Data.Nat.ModEq

/-! Counters that are only ever incremented, in `w` bits. Number `n` of such a
counter is `start + n` modulo `2 ^ w`; differences below `2 ^ w` and masked
indices below a power of two survive the wrap. -/

namespace Cpp20Showcase.Lib

namespace WrappingCounter

variable {w : Nat} (start : BitVec w)

def nth (n : Nat) : BitVec w := start + BitVec.ofNat w n

@[simp] theorem nth_zero : nth start 0 = start := by simp [nth]

theorem nth_succ (n : Nat) : nth start n + 1#w = nth start (n + 1) := by
  simp only [nth, BitVec.ofNat_add, BitVec.add_assoc]

theorem nth_sub (m n : Nat) (ordered : n ≤ m) :
    nth start m - nth start n = BitVec.ofNat w (m - n) := by
  obtain ⟨d, rfl⟩ := Nat.exists_eq_add_of_le ordered
  have regroup : nth start (n + d) = BitVec.ofNat w d + nth start n := by
    simp only [nth, BitVec.ofNat_add]
    ac_rfl
  rw [regroup, BitVec.add_sub_cancel, Nat.add_sub_cancel_left]

theorem nth_sub_eq_iff (m n d : Nat) (ordered : n ≤ m) (short : m - n < 2 ^ w) (fits : d < 2 ^ w) :
    nth start m - nth start n = BitVec.ofNat w d ↔ m = n + d := by
  rw [nth_sub start m n ordered, BitVec.toNat_inj.symm, BitVec.toNat_ofNat, BitVec.toNat_ofNat,
    Nat.mod_eq_of_lt short, Nat.mod_eq_of_lt fits]
  omega

theorem nth_eq_iff (m n : Nat) (ordered : n ≤ m) (short : m - n < 2 ^ w) :
    nth start n = nth start m ↔ n = m := by
  constructor
  · intro same
    have zero : nth start m - nth start n = BitVec.ofNat w 0 := by rw [same]; simp
    have := (nth_sub_eq_iff start m n 0 ordered short (Nat.two_pow_pos w)).mp zero
    omega
  · intro same
    rw [same]

theorem nth_congr {m n : Nat} (same : m ≡ n [MOD 2 ^ w]) : nth start m = nth start n := by
  rw [nth, nth, BitVec.toNat_inj.symm, BitVec.toNat_add, BitVec.toNat_add, BitVec.toNat_ofNat,
    BitVec.toNat_ofNat, Nat.add_mod_mod, Nat.add_mod_mod]
  exact same.add_left _

/-- The difference of two counts when the second has run `p` past a point `q` behind
the first: `q - p` modulo `2 ^ w`. -/
theorem toNat_nth_sub (n p q : Nat) (short : q < 2 ^ w) :
    (nth start (n + q) - nth start (n + p)).toNat =
      if p % 2 ^ w ≤ q then q - p % 2 ^ w else 2 ^ w + q - p % 2 ^ w := by
  have rest := Nat.mod_lt p (Nat.two_pow_pos w)
  have reduce : nth start (n + p) = nth start (n + p % 2 ^ w) :=
    nth_congr start ((Nat.mod_modEq p (2 ^ w)).symm.add_left n)
  rw [reduce]
  split
  next behind =>
    rw [nth_sub start _ _ (by omega), BitVec.toNat_ofNat, Nat.mod_eq_of_lt (by omega)]
    omega
  next ahead =>
    have turn : nth start (n + q) = nth start (n + q + 2 ^ w) :=
      nth_congr start (Nat.ModEq.symm (by simp [Nat.ModEq]))
    rw [turn, nth_sub start _ _ (by omega), BitVec.toNat_ofNat, Nat.mod_eq_of_lt (by omega)]
    omega

theorem toNat_and_mask (x capacity : BitVec w) (k : Nat) (single : capacity.toNat = 2 ^ k) :
    (x &&& (capacity - 1#w)).toNat = x.toNat % 2 ^ k := by
  have mask : (capacity - 1#w).toNat = 2 ^ k - 1 := by
    have fits := capacity.isLt
    have positive := Nat.two_pow_pos k
    rw [single] at fits
    rcases Nat.eq_zero_or_pos w with rfl | wide
    · rw [Nat.pow_zero] at fits
      omega
    · have one : (1#w).toNat = 1 := by
        rw [BitVec.toNat_ofNat, Nat.mod_eq_of_lt (Nat.one_lt_two_pow wide.ne')]
      rw [BitVec.toNat_sub, one, single]
      rw [show 2 ^ w - 1 + 2 ^ k = (2 ^ k - 1) + 2 ^ w by omega, Nat.add_mod_right,
        Nat.mod_eq_of_lt (by omega)]
  rw [BitVec.toNat_and, mask, Nat.and_two_pow_sub_one_eq_mod]

/-- A mask with `k` bits only sees the count modulo `2 ^ k`, whatever wrapped above. -/
theorem toNat_nth_mod (n k : Nat) (narrow : k ≤ w) :
    (nth start n).toNat % 2 ^ k = (start.toNat + n) % 2 ^ k := by
  have divides : 2 ^ k ∣ 2 ^ w := Nat.pow_dvd_pow 2 narrow
  rw [nth, BitVec.toNat_add, BitVec.toNat_ofNat, Nat.mod_mod_of_dvd _ divides,
    Nat.add_mod, Nat.mod_mod_of_dvd _ divides, ← Nat.add_mod]

theorem nth_mod_injective (m n k : Nat) (narrow : k ≤ w) (ordered : m ≤ n) (near : n < m + 2 ^ k)
    (same : (nth start m).toNat % 2 ^ k = (nth start n).toNat % 2 ^ k) : m = n := by
  rw [toNat_nth_mod start m k narrow, toNat_nth_mod start n k narrow] at same
  have congruent : m ≡ n [MOD 2 ^ k] := Nat.ModEq.add_left_cancel' start.toNat same
  have divides := (Nat.modEq_iff_dvd' ordered).mp congruent
  have zero := Nat.eq_zero_of_dvd_of_lt divides (by omega)
  omega

end WrappingCounter

namespace Atomic

open WrappingCounter

variable {ι : Type*} {w : Nat} {start v : BitVec w} {a b : Atomic ι (BitVec w)} {t u : ι} {lag : Nat}

/-- Every store of `a` is an increment by one, counting from `start`. -/
def Counts (start : BitVec w) (a : Atomic ι (BitVec w)) : Prop :=
  ∀ lag v, a.history[lag]? = some v → v = nth start (a.stores - lag)

theorem counts_make : (make start : Atomic ι (BitVec w)).Counts start := by
  intro lag v found
  cases lag with
  | zero => simpa [history, make, stores] using found.symm
  | succ lag => simp [history, make] at found

theorem Counts.current (counts : a.Counts start) : a.current = nth start a.stores :=
  counts 0 a.current rfl

variable [DecidableEq ι]

theorem Counts.observe {n : Nat} {known : n ≤ a.stores} (counts : a.Counts start) :
    (a.observe t n known).Counts start := counts

theorem Counts.store (counts : a.Counts start) (next : v = nth start (a.stores + 1)) :
    (a.store t v).Counts start := by
  intro lag u found
  cases lag with
  | zero =>
    simp only [history_store, List.getElem?_cons_zero, Option.some.injEq] at found
    rw [← found, next, stores_store, Nat.sub_zero]
  | succ lag =>
    rw [history_store, List.getElem?_cons_succ] at found
    rw [counts lag u found, stores_store, Nat.add_sub_add_right]

/-- What a load of a counter can return: the count as some thread-visible moment knew it. -/
theorem Counts.load (counts : a.Counts start) (read : a.load t lag = some (v, b)) :
    ∃ n, ∃ known : n ≤ a.stores, a.seen t ≤ n ∧ v = nth start n ∧ b = a.observe t n known := by
  obtain ⟨found, fresh, same⟩ := load_cases read
  exact ⟨a.stores - lag, Nat.sub_le _ _, fresh, counts lag v found, same⟩

end Atomic

end Cpp20Showcase.Lib
