import TrustMc.Bmc.Scalars
import TrustMc.Words.Separator

/-!
# Names of the bounded encoding

Every variable of the encoding is named by the construct it stands for: a version of a place, the
value of a place before the function, a value of `kani::any`, the assumptions so far, a check and
its reachability. A name is a stem, an underscore and a tail without one, so that the tail is
what follows the last underscore.

`Symbol.name_injective`: no two constructs share a name, whatever the function is called.
-/

namespace TrustMc.Bmc

/-! ### Texts -/

/-- The labels of the checks. -/
inductive Label
  | divByZeroCheck
  | modByZeroCheck
  | overflowCheck
  | overflowCheckAdd
  | overflowCheckSub
  | overflowCheckMul
  | overflowCheckDiv
  | overflowCheckRem
  | overflowCheckNeg
  | boundsCheck
  | rawPtrDerefNull
  | rawPtrDerefMisaligned
  | enumCheck
  | coroutineCheck
  | unwindAssert
  | unreachable
  | panic
  | panicStub
  | unsupportedCheck
  | kaniAssert
  | kaniAssertNoArgs
  | unsupportedCfgCycle
  deriving DecidableEq

def Label.text : Label → String
  | divByZeroCheck => "div_by_zero_check"
  | modByZeroCheck => "mod_by_zero_check"
  | overflowCheck => "overflow_check"
  | overflowCheckAdd => "overflow_check_add"
  | overflowCheckSub => "overflow_check_sub"
  | overflowCheckMul => "overflow_check_mul"
  | overflowCheckDiv => "overflow_check_div"
  | overflowCheckRem => "overflow_check_rem"
  | overflowCheckNeg => "overflow_check_neg"
  | boundsCheck => "bounds_check"
  | rawPtrDerefNull => "raw_ptr_deref_null"
  | rawPtrDerefMisaligned => "raw_ptr_deref_misaligned"
  | enumCheck => "enum_check"
  | coroutineCheck => "coroutine_check"
  | unwindAssert => "unwind_assert"
  | unreachable => "unreachable"
  | panic => "panic"
  | panicStub => "panic_stub"
  | unsupportedCheck => "unsupported_check"
  | kaniAssert => "kani_assert"
  | kaniAssertNoArgs => "kani_assert_no_args"
  | unsupportedCfgCycle => "unsupported_cfg_cycle"

/-- `ssa_base_name`. -/
def ssaBaseName (fn : String) : Place → String
  | .bare l => fn ++ "::local_" ++ toString l
  | .field l i => fn ++ "::local_" ++ toString l ++ "_field_" ++ toString i

/-- `{:016x}`. -/
def hex16 (h : BitVec 64) : String :=
  String.ofList ((List.range 16).map fun i => Nat.digitChar (h.toNat / 16 ^ (15 - i) % 16))

/-! ### Symbols -/

/-- What a variable stands for. -/
inductive Symbol
  | ssa (p : Place) (version : ℕ)
  | init (p : Place)
  | any (n : ℕ)
  | assumeCtx (n : ℕ)
  | violation (label : Label) (n : ℕ)
  | reach (label : Label) (n : ℕ)
  | assumeFinal

namespace Symbol

/-- The name up to its last underscore. -/
def stem (fn : String) : Symbol → String
  | ssa p _ => ssaBaseName fn p
  | init p => ssaBaseName fn p ++ "__ssa_init"
  | any _ => "ay_any"
  | assumeCtx _ => "ay_assume_ctx"
  | violation label _ => "ay_violation_" ++ label.text
  | reach label _ => "ay_reach_" ++ label.text
  | assumeFinal => "ay_assume"

/-- The name after its last underscore. -/
def tail (hash : Place → BitVec 64) : Symbol → String
  | ssa _ n | any n | assumeCtx n | violation _ n | reach _ n => toString n
  | init p => hex16 (hash p)
  | assumeFinal => "final"

/-- The name, as `fresh_name`, `ssa_name_from_base` and `ssa_init_symbol_name` build it. -/
def name (fn : String) (hash : Place → BitVec 64) (s : Symbol) : String :=
  s.stem fn ++ "_" ++ s.tail hash

end Symbol

/-! ### Names are distinct -/

section Texts

theorem toList_toString (n : ℕ) : (toString n).toList = Nat.toDigits 10 n := Nat.toList_repr

theorem toString_inj {m n : ℕ} (h : toString m = toString n) : m = n :=
  Words.toDigits_inj (by rw [← toList_toString, ← toList_toString, h])

theorem underscore_notMem_toString (n : ℕ) : '_' ∉ (toString n).toList := by
  rw [toList_toString]
  intro h
  exact Words.not_infix_toDigits ⟨'_', by simp, by decide⟩ ((List.singleton_infix_iff _ _).2 h)

theorem underscore_notMem_hex16 (h : BitVec 64) : '_' ∉ (hex16 h).toList := by
  have hdigit : ∀ k < 16, Nat.digitChar k ≠ '_' := by decide
  simp only [hex16, String.toList_ofList, List.mem_map, not_exists, not_and]
  exact fun i _ => hdigit _ (Nat.mod_lt _ (by decide))

/-- What follows the last underscore is determined. -/
theorem append_underscore_inj {a b x y : String} (hx : '_' ∉ x.toList) (hy : '_' ∉ y.toList)
    (h : a ++ "_" ++ x = b ++ "_" ++ y) : a = b ∧ x = y := by
  have hnot : ∀ {s : String}, '_' ∉ s.toList → ¬ ['_'] <:+: s.toList.reverse := fun hs hin =>
    hs (List.mem_reverse.1 ((List.singleton_infix_iff _ _).1 hin))
  have hlist : x.toList.reverse ++ (['_'] ++ a.toList.reverse) =
      y.toList.reverse ++ (['_'] ++ b.toList.reverse) := by
    have := congrArg (fun s : String => s.toList.reverse) h
    simpa [String.toList_append] using this
  obtain ⟨hxy, hab⟩ := Words.append_inj_of_unbordered (by decide) (hnot hx) (hnot hy) hlist
  exact ⟨String.toList_inj.1 (List.reverse_injective hab),
    String.toList_inj.1 (List.reverse_injective hxy)⟩

theorem append_left_cancel {s t u : String} (h : s ++ t = s ++ u) : t = u := by
  have := congrArg String.toList h
  simp only [String.toList_append, List.append_cancel_left_eq] at this
  exact String.toList_inj.1 this

theorem append_right_cancel {s t u : String} (h : s ++ u = t ++ u) : s = t := by
  have := congrArg String.toList h
  simp only [String.toList_append, List.append_cancel_right_eq] at this
  exact String.toList_inj.1 this

/-- The base name after the name of the function. -/
def placeText : Place → String
  | .bare l => toString l
  | .field l i => toString l ++ "_field" ++ "_" ++ toString i

theorem ssaBaseName_eq (fn : String) (p : Place) :
    ssaBaseName fn p = fn ++ "::local_" ++ placeText p := by
  cases p
  · rfl
  · simp only [ssaBaseName, placeText, String.append_assoc]
    rfl

theorem placeText_injective : Function.Injective placeText := by
  have hne : ∀ l m j : ℕ, toString l ≠ toString m ++ "_field" ++ "_" ++ toString j := by
    intro l m j h
    refine underscore_notMem_toString l ?_
    rw [h]
    simp [String.toList_append]
  intro p q h
  cases p with
  | bare l =>
    cases q with
    | bare m => rw [toString_inj h]
    | field m j => exact absurd h (hne l m j)
  | field l i =>
    cases q with
    | bare m => exact absurd h.symm (hne m l i)
    | field m j =>
      obtain ⟨hstem, htail⟩ := append_underscore_inj (underscore_notMem_toString i)
        (underscore_notMem_toString j) h
      rw [toString_inj (append_right_cancel hstem), toString_inj htail]

/-- Places have different base names. -/
theorem ssaBaseName_injective (fn : String) : Function.Injective (ssaBaseName fn) := by
  intro p q h
  rw [ssaBaseName_eq, ssaBaseName_eq] at h
  exact placeText_injective (append_left_cancel h)

theorem colon_mem_ssaBaseName (fn : String) (p : Place) : ':' ∈ (ssaBaseName fn p).toList := by
  cases p <;> simp [ssaBaseName, String.toList_append]

/-- A base name ends in a digit. -/
theorem getLast?_ssaBaseName (fn : String) (p : Place) :
    (ssaBaseName fn p).toList.getLast? ≠ some 't' := by
  have hnumber : ∀ (s : String) (n : ℕ), (s ++ toString n).toList.getLast? ≠ some 't' := by
    intro s n
    have hne : Nat.toDigits 10 n ≠ [] := Nat.toDigits_ne_nil
    rw [String.toList_append, toList_toString, List.getLast?_append_of_ne_nil _ hne]
    intro h
    have hdigit := Nat.isDigit_of_mem_toDigits (by decide) (by decide) (List.mem_of_getLast? h)
    cases hdigit
  cases p <;> exact hnumber _ _

theorem Label.text_injective : Function.Injective Label.text := by
  intro label label' h
  cases label <;> cases label' <;> first | rfl | exact absurd h (by decide)

theorem Label.colon_notMem_text (label : Label) : ':' ∉ label.text.toList := by
  cases label <;> decide

end Texts

namespace Symbol

/-- The constructor. -/
def tag : Symbol → ℕ
  | ssa .. => 0
  | init _ => 1
  | any _ => 2
  | assumeCtx _ => 3
  | violation .. => 4
  | reach .. => 5
  | assumeFinal => 6

/-- The constructor, read off a stem. -/
def tagOfStem (stem : List Char) : ℕ :=
  if ':' ∈ stem then if stem.getLast? = some 't' then 1 else 0
  else if stem = "ay_any".toList then 2
  else if stem = "ay_assume_ctx".toList then 3
  else if stem[3]? = some 'v' then 4
  else if stem[3]? = some 'r' then 5
  else 6

theorem tagOfStem_stem (fn : String) (s : Symbol) : tagOfStem (s.stem fn).toList = s.tag := by
  cases s with
  | ssa p v =>
    change tagOfStem (ssaBaseName fn p).toList = 0
    rw [tagOfStem, if_pos (colon_mem_ssaBaseName fn p), if_neg (getLast?_ssaBaseName fn p)]
  | init p =>
    have hcolon : ':' ∈ ((init p).stem fn).toList := by
      simp [stem, String.toList_append, colon_mem_ssaBaseName fn p]
    rw [tagOfStem, if_pos hcolon, if_pos (by simp [stem, String.toList_append])]
    rfl
  | any n => exact (by decide : tagOfStem "ay_any".toList = 2)
  | assumeCtx n => exact (by decide : tagOfStem "ay_assume_ctx".toList = 3)
  | violation label n | reach label n =>
    have hcolon := label.colon_notMem_text
    simp [tagOfStem, stem, String.toList_append, hcolon, tag]
  | assumeFinal => exact (by decide : tagOfStem "ay_assume".toList = 6)

theorem underscore_notMem_tail (hash : Place → BitVec 64) (s : Symbol) :
    '_' ∉ (s.tail hash).toList := by
  cases s with
  | init p => exact underscore_notMem_hex16 _
  | assumeFinal => exact (by decide : '_' ∉ "final".toList)
  | _ => exact underscore_notMem_toString _

theorem eq_of_name_eq {fn : String} {hash : Place → BitVec 64} {s s' : Symbol}
    (h : s.name fn hash = s'.name fn hash) : s = s' := by
  obtain ⟨hstem, htail⟩ :=
    append_underscore_inj (underscore_notMem_tail hash s) (underscore_notMem_tail hash s') h
  have htag : s.tag = s'.tag := by rw [← tagOfStem_stem fn s, ← tagOfStem_stem fn s', hstem]
  cases s with
  | ssa p v =>
    cases s' <;> cases htag
    rw [ssaBaseName_injective fn hstem, toString_inj htail]
  | init p =>
    cases s' <;> cases htag
    rw [ssaBaseName_injective fn (append_right_cancel hstem)]
  | any n | assumeCtx n =>
    cases s' <;> cases htag
    rw [toString_inj htail]
  | violation label n | reach label n =>
    cases s' <;> cases htag
    rw [Label.text_injective (append_left_cancel hstem), toString_inj htail]
  | assumeFinal =>
    cases s' <;> cases htag
    rfl

end Symbol

end TrustMc.Bmc
