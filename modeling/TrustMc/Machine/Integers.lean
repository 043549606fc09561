import Mathlib.Data.BitVec
import Mathlib.Tactic.Linarith
import Mathlib.Tactic.Positivity
import Mathlib.Tactic.Ring

/-!
# Machine integers

A machine integer type is a width and a signedness. Its values are read as integers
(`IntTy.read`), and an integer is reduced to a value of the type by `IntTy.wrap`; the two are
inverse to each other on the range of the type (`read_wrap`, `wrap_read`).

* `ediv_eq_tdiv_iff`, `emod_eq_tmod_iff`: when Euclidean division truncates.
* `shl_eq_zero_iff`, `ushiftRight_eq_zero_iff`, `sshiftRight_eq_fill_iff`: when a shift leaves
  nothing of its operand.
* `Distance.iff`: a shift by a reduced distance against the shift by the distance modulo the
  width.
-/

namespace Machine

/-- A fixed-width integer type. -/
structure IntTy where
  /-- Two's complement, or unsigned. -/
  signed : Bool
  /-- The number of bits. -/
  width : ℕ
  /-- The widths there are. -/
  width_mem : width ∈ [8, 16, 32, 64, 128]

namespace IntTy

/-- Bytes. -/
theorem eight_mem_widths : 8 ∈ [8, 16, 32, 64, 128] := by decide

/-- Words of 32 bits. -/
theorem thirtyTwo_mem_widths : 32 ∈ [8, 16, 32, 64, 128] := by decide

variable (t u : IntTy)

/-- The range of the type. -/
def InRange (z : ℤ) : Prop :=
  if t.signed then -2 ^ (t.width - 1) ≤ z ∧ z < 2 ^ (t.width - 1) else 0 ≤ z ∧ z < 2 ^ t.width

instance (z : ℤ) : Decidable (t.InRange z) := by
  unfold InRange
  infer_instance

/-- The integer a value stands for. -/
def read (v : BitVec t.width) : ℤ := if t.signed then v.toInt else v.toNat

/-- The value an integer is reduced to. -/
def wrap (z : ℤ) : BitVec t.width := BitVec.ofInt t.width z

theorem width_cases : t.width = 8 ∨ t.width = 16 ∨ t.width = 32 ∨ t.width = 64 ∨ t.width = 128 := by
  have h := t.width_mem
  simpa using h

theorem width_pos : 0 < t.width := by
  rcases t.width_cases with h | h | h | h | h <;> omega

theorem eight_le_width : 8 ≤ t.width := by
  rcases t.width_cases with h | h | h | h | h <;> omega

theorem width_le : t.width ≤ 128 := by
  rcases t.width_cases with h | h | h | h | h <;> omega

/-- Every width divides the number of values of every type. -/
theorem width_dvd : (t.width : ℤ) ∣ 2 ^ u.width := by
  have h128 : (t.width : ℤ) ∣ 2 ^ 7 := by
    rcases t.width_cases with h | h | h | h | h <;> rw [h] <;> decide
  have hle : 7 ≤ u.width := (by omega : 7 ≤ 8).trans u.eight_le_width
  exact h128.trans (pow_dvd_pow 2 hle)

/-- Half the values of a type are at least as many as any width. -/
theorem width_le_half : (t.width : ℤ) ≤ 2 ^ (u.width - 1) := by
  have hle : 7 ≤ u.width - 1 := Nat.le_sub_one_of_lt u.eight_le_width
  calc (t.width : ℤ) ≤ 2 ^ 7 := by exact_mod_cast t.width_le
    _ ≤ 2 ^ (u.width - 1) := pow_le_pow_right₀ (by omega) hle

theorem two_pow_width : (2 : ℤ) ^ t.width = 2 * 2 ^ (t.width - 1) := by
  obtain ⟨n, hn⟩ := Nat.exists_eq_succ_of_ne_zero t.width_pos.ne'
  rw [hn, Nat.succ_sub_one, pow_succ, mul_comm]

variable {t u}

theorem wrap_toInt (v : BitVec t.width) : t.wrap v.toInt = v := BitVec.ofInt_toInt

theorem wrap_toNat (v : BitVec t.width) : t.wrap v.toNat = v := by
  rw [wrap, BitVec.ofInt_natCast, BitVec.ofNat_toNat, BitVec.setWidth_eq]

theorem wrap_read (v : BitVec t.width) : t.wrap (t.read v) = v := by
  unfold read
  split
  · exact wrap_toInt v
  · exact wrap_toNat v

theorem read_inj {v v' : BitVec t.width} : t.read v = t.read v' ↔ v = v' := by
  refine ⟨fun h => ?_, fun h => h ▸ rfl⟩
  rw [← wrap_read v, ← wrap_read v', h]

theorem toNat_wrap (z : ℤ) : ((t.wrap z).toNat : ℤ) = z % 2 ^ t.width := by
  have hpos : (0 : ℤ) < 2 ^ t.width := by positivity
  rw [wrap, BitVec.toNat_ofInt]
  push_cast
  exact Int.toNat_of_nonneg (Int.emod_nonneg _ hpos.ne')

theorem toInt_wrap (hs : t.signed = true) {z : ℤ} (h : t.InRange z) : (t.wrap z).toInt = z := by
  rw [InRange, if_pos hs] at h
  exact BitVec.toInt_ofInt_eq_self t.width_pos h.1 h.2

theorem toNat_wrap_of_unsigned (hs : t.signed = false) {z : ℤ} (h : t.InRange z) :
    ((t.wrap z).toNat : ℤ) = z := by
  rw [InRange, if_neg (by simp [hs])] at h
  rw [toNat_wrap, Int.emod_eq_of_lt h.1 h.2]

theorem read_wrap {z : ℤ} (h : t.InRange z) : t.read (t.wrap z) = z := by
  cases hs : t.signed with
  | true => rw [read, if_pos hs, toInt_wrap hs h]
  | false => rw [read, if_neg (by simp [hs]), toNat_wrap_of_unsigned hs h]

theorem inRange_read (v : BitVec t.width) : t.InRange (t.read v) := by
  unfold InRange read
  split
  · exact ⟨BitVec.le_toInt v, BitVec.toInt_lt⟩
  · exact ⟨Int.natCast_nonneg _, by exact_mod_cast v.isLt⟩

/-- Reducing changes exactly what is out of range. -/
theorem read_wrap_eq_iff {z : ℤ} : t.read (t.wrap z) = z ↔ t.InRange z :=
  ⟨fun h => h ▸ inRange_read _, read_wrap⟩

theorem wrap_eq_zero_iff {z : ℤ} : t.wrap z = 0#t.width ↔ (2 : ℤ) ^ t.width ∣ z := by
  rw [← BitVec.toNat_inj, BitVec.toNat_ofNat, Nat.zero_mod, Int.dvd_iff_emod_eq_zero,
    ← toNat_wrap]
  omega

theorem InRange.nonneg {z : ℤ} (hs : t.signed = false) (h : t.InRange z) : 0 ≤ z := by
  rw [InRange, if_neg (by simp [hs])] at h
  exact h.1

theorem InRange.lt {z : ℤ} (h : t.InRange z) : z < 2 ^ t.width := by
  have hpos : (0 : ℤ) < 2 ^ (t.width - 1) := by positivity
  rw [InRange] at h
  rw [two_pow_width] at *
  split at h <;> omega

theorem InRange.ge {z : ℤ} (h : t.InRange z) : -2 ^ (t.width - 1) ≤ z := by
  have hpos : (0 : ℤ) < 2 ^ (t.width - 1) := by positivity
  rw [InRange] at h
  split at h <;> omega

end IntTy

/-! ### Division -/

/-- Euclidean division truncates where nothing is left over or the dividend is not negative. -/
theorem ediv_eq_tdiv_iff {x y : ℤ} (hy : y ≠ 0) : x / y = x.tdiv y ↔ 0 ≤ x ∨ y ∣ x := by
  rw [Int.tdiv_eq_ediv]
  split_ifs with h
  · simp [h]
  · have hsign : y.sign ≠ 0 := by rwa [Ne, Int.sign_eq_zero_iff_zero]
    simp only [h, iff_false]
    omega

theorem emod_eq_tmod_iff {x y : ℤ} (hy : y ≠ 0) : x % y = x.tmod y ↔ 0 ≤ x ∨ y ∣ x := by
  rw [Int.tmod_eq_emod]
  split_ifs with h
  · simp [h]
  · simp only [h, iff_false]
    omega

/-! ### Shifts -/

section Shifts

variable {t u : IntTy} {x y : ℤ} {k : ℕ}

theorem wrap_shiftLeft (x : ℤ) (k : ℕ) : t.wrap x <<< k = t.wrap (x * 2 ^ k) := by
  rw [← BitVec.toNat_inj, ← Int.natCast_inj, IntTy.toNat_wrap, BitVec.toNat_shiftLeft,
    Nat.shiftLeft_eq]
  push_cast
  rw [IntTy.toNat_wrap, Int.mul_emod, Int.emod_emod_of_dvd _ (dvd_refl _), ← Int.mul_emod]

/-- A left shift leaves nothing where the bits it keeps are zero. -/
theorem shl_eq_zero_iff : t.wrap x <<< k = 0#t.width ↔ (2 : ℤ) ^ t.width ∣ x * 2 ^ k := by
  rw [wrap_shiftLeft, IntTy.wrap_eq_zero_iff]

theorem ushiftRight_eq_zero_iff (hs : t.signed = false) (h : t.InRange x) :
    t.wrap x >>> k = 0#t.width ↔ x < 2 ^ k := by
  have hx := IntTy.toNat_wrap_of_unsigned hs h
  have hpos : 0 < 2 ^ k := by positivity
  have hdiv : (t.wrap x).toNat / 2 ^ k = 0 ↔ (t.wrap x).toNat < 2 ^ k := by
    rw [Nat.div_eq_zero_iff]
    omega
  rw [← BitVec.toNat_inj, BitVec.toNat_ushiftRight, Nat.shiftRight_eq_div_pow,
    BitVec.toNat_ofNat, Nat.zero_mod, hdiv]
  conv_rhs => rw [← hx]
  exact_mod_cast Iff.rfl

theorem toInt_sshiftRight_wrap (hs : t.signed = true) (h : t.InRange x) :
    ((t.wrap x).sshiftRight k).toInt = x / 2 ^ k := by
  rw [BitVec.toInt_sshiftRight, IntTy.toInt_wrap hs h, Int.shiftRight_eq_div_pow]
  push_cast
  rfl

/-- The quotient by a power of two is the sign where the power bounds the dividend. -/
theorem ediv_two_pow_eq_fill_iff : x / 2 ^ k = (if x < 0 then -1 else 0) ↔
    -2 ^ k ≤ x ∧ x < 2 ^ k := by
  have hpos : (0 : ℤ) < 2 ^ k := by positivity
  have hdm := Int.mul_ediv_add_emod x (2 ^ k)
  have hlo := Int.emod_nonneg x hpos.ne'
  have hhi := Int.emod_lt_of_pos x hpos
  generalize hq : x / 2 ^ k = q at *
  generalize hr : x % 2 ^ k = r at *
  generalize (2 : ℤ) ^ k = p at *
  split_ifs with hneg
  · constructor
    · rintro rfl
      constructor <;> linarith
    · rintro ⟨hle, -⟩
      have hlt : q < 0 := by
        by_contra hge
        nlinarith
      have hgt : -2 < q := by
        by_contra hle'
        nlinarith
      omega
  · constructor
    · rintro rfl
      constructor <;> linarith
    · rintro ⟨-, hlt⟩
      have hge : 0 ≤ q := by
        by_contra hneg'
        nlinarith
      have hle : q < 1 := by
        by_contra hge'
        nlinarith
      omega

/-- An arithmetic shift by the width or more leaves the sign. -/
theorem sshiftRight_eq_fill_iff (hs : t.signed = true) (h : t.InRange x) {d : ℕ}
    (hd : t.width ≤ d) : (t.wrap x).sshiftRight d = (t.wrap x).sshiftRight k ↔
      -2 ^ k ≤ x ∧ x < 2 ^ k := by
  have hle : (2 : ℤ) ^ (t.width - 1) ≤ 2 ^ d := pow_le_pow_right₀ (by omega) (by omega)
  have hrange := h
  rw [IntTy.InRange, if_pos hs] at hrange
  have hfill : x / 2 ^ d = if x < 0 then -1 else 0 :=
    ediv_two_pow_eq_fill_iff.2 ⟨by omega, by omega⟩
  have hinj : (t.wrap x).sshiftRight d = (t.wrap x).sshiftRight k ↔ x / 2 ^ d = x / 2 ^ k := by
    rw [← toInt_sshiftRight_wrap hs h, ← toInt_sshiftRight_wrap hs h]
    exact ⟨fun heq => congrArg BitVec.toInt heq, BitVec.eq_of_toInt_eq⟩
  rw [hinj, hfill, eq_comm, ediv_two_pow_eq_fill_iff]

/-- Bits read as an integer. -/
def readAs (signed : Bool) {m : ℕ} (b : BitVec m) : ℤ := if signed then b.toInt else b.toNat

/-- However bits are read, they are the reading modulo the number of values. -/
theorem readAs_emod (signed : Bool) {m : ℕ} (b : BitVec m) :
    readAs signed b % 2 ^ m = b.toNat := by
  have hlt : (b.toNat : ℤ) < 2 ^ m := by exact_mod_cast b.isLt
  have hnat : (b.toNat : ℤ) % 2 ^ m = b.toNat := Int.emod_eq_of_lt (Int.natCast_nonneg _) hlt
  unfold readAs
  split
  · rw [BitVec.toInt_eq_toNat_cond]
    split
    · exact hnat
    · push_cast
      rw [Int.sub_emod_right, hnat]
  · exact hnat

/-- Widened as they are read, bits are read as before. -/
theorem readAs_signExtend {m n : ℕ} (h : m ≤ n) (b : BitVec m) :
    readAs true (b.signExtend n) = readAs true b := BitVec.toInt_signExtend_of_le h

theorem readAs_setWidth {m n : ℕ} (h : m ≤ n) (b : BitVec m) :
    readAs false (b.setWidth n) = readAs false b := by
  have hlt : b.toNat < 2 ^ n := b.isLt.trans_le (Nat.pow_le_pow_right (by omega) h)
  simp only [readAs, Bool.false_eq_true, if_false, BitVec.toNat_setWidth, Nat.mod_eq_of_lt hlt]

/-- Cut off, bits are the reading modulo the number of values that remain. -/
theorem toNat_extractLsb_readAs (signed : Bool) {m n : ℕ} (h : n + 1 ≤ m) (b : BitVec m) :
    ((b.extractLsb n 0).toNat : ℤ) = readAs signed b % 2 ^ (n + 1) := by
  rw [BitVec.extractLsb_toNat, Nat.shiftRight_zero, Nat.sub_zero]
  push_cast
  rw [← readAs_emod signed b, Int.emod_emod_of_dvd _ (pow_dvd_pow 2 h)]

/-- `d` is what the distance `y` becomes at the value's width: either both are out of range, or
`d` is `y` modulo the width. -/
structure Distance (t : IntTy) (y : ℤ) (d : BitVec t.width) : Prop where
  /-- In range together. -/
  lt_iff : d.toNat < t.width ↔ y % 2 ^ t.width < t.width
  /-- The distance that is shifted by. -/
  eq : d.toNat < t.width → (d.toNat : ℤ) = y % t.width

/-- Of the integers a type reads, those below a width are those that are reduced to one. -/
theorem emod_lt_width_iff {z : ℤ} (hlo : -2 ^ (u.width - 1) ≤ z) (hhi : z < 2 ^ u.width) :
    z % 2 ^ u.width < t.width ↔ 0 ≤ z ∧ z < t.width := by
  have hhalf := t.width_le_half u
  have hpow := u.two_pow_width
  rcases lt_or_ge z 0 with hneg | hpos
  · have hmod : z % 2 ^ u.width = z + 2 ^ u.width := by
      rw [← Int.add_emod_right, Int.emod_eq_of_lt (by omega) (by omega)]
    rw [hmod]
    omega
  · rw [Int.emod_eq_of_lt hpos hhi]
    omega

theorem readAs_dvd (signed : Bool) (y : ℤ) :
    (2 : ℤ) ^ u.width ∣ readAs signed (u.wrap y) - y := by
  have hnat : (2 : ℤ) ^ u.width ∣ (u.wrap y).toNat - y := by
    rw [IntTy.toNat_wrap]
    exact Int.dvd_emod_sub_self
  unfold readAs
  split
  · rw [BitVec.toInt_eq_toNat_cond]
    split
    · exact hnat
    · have hsub : ((u.wrap y).toNat : ℤ) - (2 ^ u.width : ℕ) - y =
          ((u.wrap y).toNat - y) - 2 ^ u.width := by
        push_cast
        ring
      rw [hsub]
      exact dvd_sub hnat (dvd_refl _)
  · exact hnat

theorem readAs_bounds (signed : Bool) (b : BitVec u.width) :
    -2 ^ (u.width - 1) ≤ readAs signed b ∧ readAs signed b < 2 ^ u.width := by
  have hpos : (0 : ℤ) < 2 ^ (u.width - 1) := by positivity
  have hpow := u.two_pow_width
  unfold readAs
  split
  · have hlo := BitVec.le_toInt b
    have hhi := @BitVec.toInt_lt _ b
    omega
  · have hlt : (b.toNat : ℤ) < 2 ^ u.width := by exact_mod_cast b.isLt
    omega

/-- Read with either sign at its own width and then reduced to the value's, a distance stays
what it is or stays out of range. -/
theorem Distance.of_reading {signed : Bool} {d : BitVec t.width} (h : u.InRange y)
    (hd : (d.toNat : ℤ) = readAs signed (u.wrap y) % 2 ^ t.width) : Distance t y d := by
  have hdvd := readAs_dvd (u := u) signed y
  obtain ⟨hlo, hhi⟩ := readAs_bounds (u := u) signed (u.wrap y)
  generalize readAs signed (u.wrap y) = z at *
  have hmod : ∀ {v : ℤ}, v % 2 ^ t.width < t.width → v % 2 ^ t.width = v % t.width := by
    intro v hv
    have hpos : (0 : ℤ) < 2 ^ t.width := by positivity
    rw [← Int.emod_emod_of_dvd v (t.width_dvd t),
      Int.emod_eq_of_lt (Int.emod_nonneg v hpos.ne') hv]
  rcases le_or_gt t.width u.width with hle | hgt
  · -- the reduction to the value's width forgets how the distance was read
    have hsame : z % 2 ^ t.width = y % 2 ^ t.width :=
      Int.emod_eq_emod_iff_emod_sub_eq_zero.2
        (Int.emod_eq_zero_of_dvd ((pow_dvd_pow 2 hle).trans hdvd))
    rw [hsame] at hd
    constructor
    · rw [← hd]
      exact_mod_cast Iff.rfl
    · intro hlt
      rw [hd]
      exact hmod (by rw [← hd]; exact_mod_cast hlt)
  · have hhalf := u.two_pow_width
    have hwider : (2 : ℤ) ^ u.width ≤ 2 ^ (t.width - 1) :=
      pow_le_pow_right₀ (by omega) (by omega)
    have hpow := t.two_pow_width
    have hpos : (0 : ℤ) < 2 ^ (u.width - 1) := by positivity
    have hsmall := t.width_le_half u
    have hz := @emod_lt_width_iff t t z (by omega) (by omega)
    have hy := @emod_lt_width_iff t t y (by have := h.ge; omega) (by have := h.lt; omega)
    -- below half the values of its type, a distance is read as it is
    have hagree : (0 ≤ z ∧ z < t.width) ∨ (0 ≤ y ∧ y < t.width) → z = y := by
      obtain ⟨c, hc⟩ := hdvd
      have hylo := h.ge
      have hyhi := h.lt
      intro hin
      have hc0 : c = 0 := by
        have hlt : c < 1 := by
          by_contra hge
          have : (2 : ℤ) ^ u.width * 1 ≤ 2 ^ u.width * c :=
            mul_le_mul_of_nonneg_left (by omega) (by positivity)
          omega
        have hgt' : -1 < c := by
          by_contra hle
          have : (2 : ℤ) ^ u.width * c ≤ 2 ^ u.width * (-1) :=
            mul_le_mul_of_nonneg_left (by omega) (by positivity)
          omega
        omega
      rw [hc0, mul_zero] at hc
      omega
    have hiff : z % 2 ^ t.width < t.width ↔ y % 2 ^ t.width < t.width := by
      rw [hz, hy]
      constructor <;> intro hin
      · exact hagree (.inl hin) ▸ hin
      · exact (hagree (.inr hin)).symm ▸ hin
    constructor
    · rw [← hiff, ← hd]
      exact_mod_cast Iff.rfl
    · intro hlt
      have hzlt : z % 2 ^ t.width < t.width := by rw [← hd]; exact_mod_cast hlt
      have heq := hagree (.inl (hz.1 hzlt))
      rw [hd, hmod hzlt, heq]

variable {d : BitVec t.width}

theorem Distance.toNat_eq (h : Distance t y d) (hlt : y % 2 ^ t.width < t.width) :
    d.toNat = (y % t.width).toNat := by
  have := h.eq (h.lt_iff.2 hlt)
  omega

theorem Distance.width_le (h : Distance t y d) (hge : ¬ y % 2 ^ t.width < t.width) :
    t.width ≤ d.toNat := by
  rw [← h.lt_iff] at hge
  omega

/-- A left shift is the shift by the distance modulo the width where the distance is in range
or nothing is left. -/
theorem Distance.shl_iff (h : Distance t y d) :
    t.wrap x <<< d = t.wrap x <<< (y % t.width).toNat ↔
      y % 2 ^ t.width < t.width ∨ (2 : ℤ) ^ t.width ∣ x * 2 ^ (y % t.width).toNat := by
  rw [BitVec.shiftLeft_eq']
  by_cases hlt : y % 2 ^ t.width < t.width
  · simp [h.toNat_eq hlt, hlt]
  · rw [BitVec.shiftLeft_eq_zero (h.width_le hlt), eq_comm, shl_eq_zero_iff]
    simp [hlt]

theorem Distance.ushr_iff (h : Distance t y d) (hs : t.signed = false) (hx : t.InRange x) :
    t.wrap x >>> d = t.wrap x >>> (y % t.width).toNat ↔
      y % 2 ^ t.width < t.width ∨ x < 2 ^ (y % t.width).toNat := by
  rw [BitVec.ushiftRight_eq']
  by_cases hlt : y % 2 ^ t.width < t.width
  · simp [h.toNat_eq hlt, hlt]
  · rw [BitVec.ushiftRight_eq_zero (h.width_le hlt), eq_comm, ushiftRight_eq_zero_iff hs hx]
    simp [hlt]

theorem Distance.sshr_iff (h : Distance t y d) (hs : t.signed = true) (hx : t.InRange x) :
    (t.wrap x).sshiftRight' d = (t.wrap x).sshiftRight (y % t.width).toNat ↔
      y % 2 ^ t.width < t.width ∨
        -2 ^ (y % t.width).toNat ≤ x ∧ x < 2 ^ (y % t.width).toNat := by
  rw [BitVec.sshiftRight_eq']
  by_cases hlt : y % 2 ^ t.width < t.width
  · simp [h.toNat_eq hlt, hlt]
  · rw [sshiftRight_eq_fill_iff hs hx (h.width_le hlt)]
    simp [hlt]

end Shifts

end Machine
