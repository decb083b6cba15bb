import Mathlib

/-!
# Formatted output (kernel/printf.c, user/printf.c)

The kernel's `printf` and the user library's `vprintf` walk the format, copy its characters and
expand each `%` directive from the next variadic argument. An argument is a 64-bit slot, as the
RISC-V calling convention passes it: `va_arg(ap, int)` reads its low 32 bits, a `char *` is a
pointer, and `strAt p` is the NUL-terminated string at `p`. The output is the list of characters
`consputc` or `putc` writes.

Both files share `printint`, which prints the digits of `x % base` least significant first into
`buf` and then prints `buf` backwards, and `printptr`, which prints the top four bits of `x`
sixteen times, shifting `x` left by four each time; they differ only in their table `digits`.

* `numeral`: the digits of a number, by `Nat.digits`; `printintWith_signed`,
  `printintWith_unsigned`: printint prints the numeral, after `-` for a negative `int` with
  `sign` set, `INT_MIN` included; `numeral_head_ne_zero`: no leading zeros;
* `printptrWith_eq`: `0x` and the sixteen hexadecimal digits of the pointer;
* `printfLoop_literal`, `vprintfLoop_literal`: text without `%` is copied;
* `printf_misrenders`: the kernel prints `%x` with `sign = 1`, and the user library passes the
  `uint64` of `%l` through printint's `int` parameter.
-/

namespace Xv6

/-- `printint`'s `base`: its callers pass 10 or 16. -/
inductive Base
  | dec
  | hex
  deriving DecidableEq, Repr

/-- The number `base`. -/
def Base.val : Base → ℕ
  | .dec => 10
  | .hex => 16

theorem Base.one_lt (b : Base) : 1 < b.val := by
  cases b <;> decide

section Numerals

variable (digits : List Char) (b : Base)

/-- printint's loop `do { buf[i++] = digits[x % base]; } while((x /= base) != 0);`: the
characters of `buf`, least significant digit first. -/
def digitLoop (x : ℕ) : List Char :=
  digits.getD (x % b.val) '0' :: if x / b.val = 0 then [] else digitLoop (x / b.val)
termination_by x
decreasing_by
  -- the quotient is not zero, so neither is `x`, and it is smaller
  exact Nat.div_lt_self (Nat.pos_of_ne_zero fun h => by simp_all) b.one_lt

/-- `printint(xx, base, sign)` with the digit table `digits`: the characters it prints. `x = -xx`
negates the `int` in 32 bits, so that `INT_MIN` stays `INT_MIN`, read as a `uint`. -/
def printintWith (xx : BitVec 32) (sign : Bool) : List Char :=
  let neg := sign && decide (xx.toInt < 0)
  let x : BitVec 32 := if neg then -xx else xx
  (digitLoop digits b x.toNat ++ if neg then ['-'] else []).reverse

/-- `printptr(x)`'s loop `for (i = 0; i < 16; i++, x <<= 4) putc(digits[x >> 60]);`, for the
`k` turns left. -/
def ptrLoop : ℕ → BitVec 64 → List Char
  | 0, _ => []
  | k + 1, x => digits.getD (x >>> 60).toNat '0' :: ptrLoop k (x <<< 4)

/-- `printptr(x)` with the digit table `digits`. -/
def printptrWith (x : BitVec 64) : List Char :=
  '0' :: 'x' :: ptrLoop digits 16 x

/-- The numeral of `x` in base `b`: its digits, most significant first, with no leading zero;
the one digit `0` for zero. -/
def numeral (x : ℕ) : List Char :=
  if x = 0 then [digits.getD 0 '0'] else (Nat.digits b.val x).reverse.map (digits.getD · '0')

/-- printint's loop puts out the digits of `x` from the least significant. -/
theorem digitLoop_eq (x : ℕ) :
    digitLoop digits b x =
      if x = 0 then [digits.getD 0 '0'] else (Nat.digits b.val x).map (digits.getD · '0') := by
  induction x using Nat.strong_induction_on with
  | _ x ih =>
    rw [digitLoop]
    by_cases hx : x = 0
    · subst hx
      simp
    · rw [if_neg hx, Nat.digits_def' b.one_lt (Nat.pos_of_ne_zero hx), List.map_cons]
      congr 1
      by_cases hq : x / b.val = 0
      · rw [if_pos hq, hq, Nat.digits_zero, List.map_nil]
      · rw [if_neg hq, ih _ (Nat.div_lt_self (Nat.pos_of_ne_zero hx) b.one_lt), if_neg hq]

theorem reverse_digitLoop (x : ℕ) : (digitLoop digits b x).reverse = numeral digits b x := by
  rw [digitLoop_eq, numeral]
  split_ifs
  · rfl
  · rw [List.map_reverse]

/-- With `sign` set, printint prints a negative `int` as `-` and the numeral of its magnitude,
`INT_MIN` included, and any other as its numeral. -/
theorem printintWith_signed (xx : BitVec 32) :
    printintWith digits b xx true =
      if xx.toInt < 0 then '-' :: numeral digits b xx.toInt.natAbs
      else numeral digits b xx.toNat := by
  unfold printintWith
  by_cases hneg : xx.toInt < 0
  · -- `x = -xx`: in 32 bits, `2^32 - xx`, the magnitude
    have hmag : (-xx).toNat = xx.toInt.natAbs := by
      rw [BitVec.toNat_neg]
      rw [BitVec.toInt_eq_toNat_cond] at hneg ⊢
      split_ifs at hneg ⊢ <;> omega
    simp only [hneg, decide_true, Bool.and_true, if_true, List.reverse_append, hmag,
      reverse_digitLoop]
    rfl
  · simp only [hneg, decide_false, Bool.and_false, if_false, List.append_nil,
      reverse_digitLoop, Bool.false_eq_true]

/-- Without `sign`, printint prints the numeral of the `int` read as a `uint`. -/
theorem printintWith_unsigned (xx : BitVec 32) :
    printintWith digits b xx false = numeral digits b xx.toNat := by
  simp only [printintWith, Bool.false_and, Bool.false_eq_true, if_false, List.append_nil,
    reverse_digitLoop]

/-- Shifting left by four brings the bits `q .. q + 3` up by four. -/
theorem shl_four_div_mod (y q : ℕ) (hq : q + 8 ≤ 64) :
    y * 2 ^ 4 % 2 ^ 64 / 2 ^ (q + 4) % 16 = y / 2 ^ q % 16 := by
  have hdvd : 2 ^ (q + 4) * 2 ^ 4 ∣ 2 ^ 64 := by
    rw [← pow_add]
    exact Nat.pow_dvd_pow 2 (by omega)
  calc y * 2 ^ 4 % 2 ^ 64 / 2 ^ (q + 4) % 2 ^ 4
      = y * 2 ^ 4 % 2 ^ 64 % (2 ^ (q + 4) * 2 ^ 4) / 2 ^ (q + 4) :=
        (Nat.mod_mul_right_div_self _ _ _).symm
    _ = y * 2 ^ 4 / 2 ^ (q + 4) % 2 ^ 4 := by
        rw [Nat.mod_mod_of_dvd _ hdvd, Nat.mod_mul_right_div_self]
    _ = y / 2 ^ q % 2 ^ 4 := by
        rw [pow_add, Nat.mul_div_mul_right _ _ (by positivity)]

/-- The `k` turns of printptr's loop left put out the top `k` hexadecimal digits of `x`. -/
theorem ptrLoop_eq (k : ℕ) (hk : k ≤ 16) (x : BitVec 64) :
    ptrLoop digits k x = (List.range k).map fun j => digits.getD (x.toNat / 2 ^ (60 - 4 * j) % 16) '0' := by
  induction k generalizing x with
  | zero => rfl
  | succ k ih =>
    rw [ptrLoop, ih (by omega), List.range_succ_eq_map, List.map_cons, List.map_map]
    have hx := x.isLt
    congr 1
    · -- the top four bits
      rw [BitVec.toNat_ushiftRight, Nat.shiftRight_eq_div_pow]
      congr 1
      omega
    · -- `x <<= 4` brings the next four up
      refine List.map_congr_left fun j hj => ?_
      have hj : j < 15 := by have := List.mem_range.1 hj; omega
      simp only [Function.comp_apply, BitVec.toNat_shiftLeft, Nat.shiftLeft_eq]
      rw [show 60 - 4 * j = 60 - 4 * (j + 1) + 4 by omega, shl_four_div_mod _ _ (by omega)]

/-- printptr prints `0x` and the sixteen hexadecimal digits of the pointer. -/
theorem printptrWith_eq (x : BitVec 64) :
    printptrWith digits x =
      '0' :: 'x' :: (List.range 16).map fun j => digits.getD (x.toNat / 16 ^ (15 - j) % 16) '0' := by
  rw [printptrWith, ptrLoop_eq digits 16 (Nat.le_refl 16)]
  -- `2 ^ (60 - 4 * j) = 16 ^ (15 - j)` at each of the sixteen `j`
  rfl

end Numerals

/-! ## Reading a numeral back

With a table of distinct characters, at least `base` of them, a numeral is read back by each
character's place in the table: different numbers print differently, and no numeral but zero's
starts with the zero digit. -/

section Tables

variable {digits : List Char} {b : Base}

/-- The number a numeral stands for: each character's place in the table, as base-`b` digits. -/
def readNumeral (digits : List Char) (b : Base) (s : List Char) : ℕ :=
  Nat.ofDigits b.val (s.reverse.map digits.idxOf)

/-- Every character of a numeral is one of the first `b` of the table. -/
theorem mem_numeral {x : ℕ} {c : Char} (hc : c ∈ numeral digits b x) :
    ∃ k < b.val, digits.getD k '0' = c := by
  unfold numeral at hc
  split_ifs at hc with hx
  · exact ⟨0, Nat.zero_lt_of_lt b.one_lt, (List.mem_singleton.1 hc).symm⟩
  · obtain ⟨k, hk, rfl⟩ := List.mem_map.1 hc
    exact ⟨k, Nat.digits_lt_base b.one_lt (List.mem_reverse.1 hk), rfl⟩

variable (hnd : digits.Nodup) (hlen : b.val ≤ digits.length)
include hnd hlen

theorem idxOf_getD {k : ℕ} (hk : k < b.val) : digits.idxOf (digits.getD k '0') = k := by
  rw [List.getD_eq_getElem _ _ (Nat.lt_of_lt_of_le hk hlen)]
  exact hnd.idxOf_getElem k _

theorem readNumeral_numeral (x : ℕ) : readNumeral digits b (numeral digits b x) = x := by
  unfold readNumeral numeral
  split_ifs with hx
  · subst hx
    rw [List.reverse_singleton, List.map_singleton, idxOf_getD hnd hlen (Nat.zero_lt_of_lt b.one_lt),
      Nat.ofDigits_singleton]
  · -- each digit comes back from its character
    have hback : (Nat.digits b.val x).map (digits.idxOf ∘ (digits.getD · '0')) = Nat.digits b.val x :=
      (List.map_congr_left fun k hk => idxOf_getD hnd hlen (Nat.digits_lt_base b.one_lt hk)).trans
        (List.map_id _)
    rw [← List.map_reverse, List.reverse_reverse, List.map_map, hback, Nat.ofDigits_digits]

/-- Different numbers print as different numerals. -/
theorem numeral_injective : Function.Injective (numeral digits b) := fun x y h => by
  rw [← readNumeral_numeral hnd hlen x, h, readNumeral_numeral hnd hlen y]

/-- A numeral starts with a digit other than zero, unless it is the one digit of zero. -/
theorem numeral_head_ne_zero {x : ℕ} (hx : x ≠ 0) :
    ∃ d rest, numeral digits b x = d :: rest ∧ d ≠ digits.getD 0 '0' := by
  have hne : Nat.digits b.val x ≠ [] := Nat.digits_ne_nil_iff_ne_zero.2 hx
  have hlast := Nat.getLast_digit_ne_zero b.val hx
  have hlt := Nat.digits_lt_base b.one_lt (List.getLast_mem hne)
  refine ⟨digits.getD ((Nat.digits b.val x).getLast hne) '0',
    ((Nat.digits b.val x).dropLast.reverse.map (digits.getD · '0')), ?_, fun h => hlast ?_⟩
  · rw [numeral, if_neg hx]
    conv_lhs => rw [← List.dropLast_append_getLast hne]
    rw [List.reverse_append, List.reverse_singleton, List.singleton_append, List.map_cons]
  · -- the zero digit's character is the zero digit's only
    rw [← idxOf_getD hnd hlen hlt, h, idxOf_getD hnd hlen (Nat.zero_lt_of_lt b.one_lt)]

end Tables

/-- `%s`: the characters of the string at `s`, those of `"(null)"` for a null pointer. -/
def strOrNull (strAt : BitVec 64 → List Char) (s : BitVec 64) : List Char :=
  if s = 0 then ['(', 'n', 'u', 'l', 'l', ')'] else strAt s

/-! ## The kernel's printf

`args i` is the `i`th variadic argument; the format is the characters before its NUL. -/

namespace Kernel

/-- `digits[]` of kernel/printf.c. -/
def digits : List Char :=
  ['0', '1', '2', '3', '4', '5', '6', '7', '8', '9', 'a', 'b', 'c', 'd', 'e', 'f']

/-- `printint(xx, base, sign)` of kernel/printf.c. -/
def printint (xx : BitVec 32) (base : Base) (sign : Bool) : List Char :=
  printintWith digits base xx sign

/-- `printptr(x)` of kernel/printf.c. -/
def printptr (x : BitVec 64) : List Char :=
  printptrWith digits x

/-- printf's `for` loop over the rest `fmt` of the format, `i` arguments taken. -/
def printfLoop (args : ℕ → BitVec 64) (strAt : BitVec 64 → List Char) : List Char → ℕ → List Char
  | [], _ => []
  | c :: fmt, i =>
    if c ≠ '%' then c :: printfLoop args strAt fmt i
    else
      match fmt with
      -- `c = fmt[++i]` is the NUL: `break`
      | [] => []
      | c :: fmt =>
        if c = 'd' then printint ((args i).setWidth 32) .dec true ++ printfLoop args strAt fmt (i + 1)
        else if c = 'x' then
          printint ((args i).setWidth 32) .hex true ++ printfLoop args strAt fmt (i + 1)
        else if c = 'p' then printptr (args i) ++ printfLoop args strAt fmt (i + 1)
        else if c = 's' then strOrNull strAt (args i) ++ printfLoop args strAt fmt (i + 1)
        else if c = '%' then '%' :: printfLoop args strAt fmt i
        else '%' :: c :: printfLoop args strAt fmt i

/-- `printf(fmt, ...)`: what it writes to the console. -/
def printf (fmt : List Char) (args : ℕ → BitVec 64) (strAt : BitVec 64 → List Char) : List Char :=
  printfLoop args strAt fmt 0

theorem printfLoop_cons (args : ℕ → BitVec 64) (strAt : BitVec 64 → List Char) {c : Char}
    (hc : c ≠ '%') (fmt : List Char) (i : ℕ) :
    printfLoop args strAt (c :: fmt) i = c :: printfLoop args strAt fmt i := by
  rw [printfLoop.eq_def]
  exact if_pos hc

/-- Text with no `%` is copied. -/
theorem printfLoop_literal (args : ℕ → BitVec 64) (strAt : BitVec 64 → List Char)
    {lit : List Char} (hlit : '%' ∉ lit) (fmt : List Char) (i : ℕ) :
    printfLoop args strAt (lit ++ fmt) i = lit ++ printfLoop args strAt fmt i := by
  induction lit with
  | nil => rfl
  | cons c lit ih =>
    have hc : c ≠ '%' := fun h => hlit (h ▸ List.mem_cons_self)
    rw [List.cons_append, printfLoop_cons args strAt hc,
      ih (fun h => hlit (List.mem_cons_of_mem c h)), List.cons_append]

end Kernel

/-! ## The user library's vprintf -/

namespace User

/-- `digits[]` of user/printf.c. -/
def digits : List Char :=
  ['0', '1', '2', '3', '4', '5', '6', '7', '8', '9', 'A', 'B', 'C', 'D', 'E', 'F']

/-- `printint(fd, xx, base, sgn)` of user/printf.c. -/
def printint (xx : BitVec 32) (base : Base) (sgn : Bool) : List Char :=
  printintWith digits base xx sgn

/-- `printptr(fd, x)` of user/printf.c. -/
def printptr (x : BitVec 64) : List Char :=
  printptrWith digits x

/-- vprintf's loop over the rest `fmt` of the format, `i` arguments taken, `state == '%'` after
a `%`. -/
def vprintfLoop (args : ℕ → BitVec 64) (strAt : BitVec 64 → List Char) :
    List Char → ℕ → Bool → List Char
  | [], _, _ => []
  | c :: fmt, i, false =>
    if c = '%' then vprintfLoop args strAt fmt i true else c :: vprintfLoop args strAt fmt i false
  | c :: fmt, i, true =>
    if c = 'd' then printint ((args i).setWidth 32) .dec true ++ vprintfLoop args strAt fmt (i + 1) false
    -- `va_arg(ap, uint64)` passed to printint's `int xx`: its low 32 bits
    else if c = 'l' then
      printint ((args i).setWidth 32) .dec false ++ vprintfLoop args strAt fmt (i + 1) false
    else if c = 'x' then
      printint ((args i).setWidth 32) .hex false ++ vprintfLoop args strAt fmt (i + 1) false
    else if c = 'p' then printptr (args i) ++ vprintfLoop args strAt fmt (i + 1) false
    else if c = 's' then strOrNull strAt (args i) ++ vprintfLoop args strAt fmt (i + 1) false
    -- `putc(fd, va_arg(ap, uint))`: putc's `char c` is the low byte
    else if c = 'c' then
      Char.ofNat ((args i).toNat % 256) :: vprintfLoop args strAt fmt (i + 1) false
    else if c = '%' then c :: vprintfLoop args strAt fmt i false
    else '%' :: c :: vprintfLoop args strAt fmt i false

/-- `vprintf(fd, fmt, ap)`: what it writes to `fd`. -/
def vprintf (fmt : List Char) (args : ℕ → BitVec 64) (strAt : BitVec 64 → List Char) : List Char :=
  vprintfLoop args strAt fmt 0 false

/-- Text with no `%` is copied. -/
theorem vprintfLoop_literal (args : ℕ → BitVec 64) (strAt : BitVec 64 → List Char)
    {lit : List Char} (hlit : '%' ∉ lit) (fmt : List Char) (i : ℕ) :
    vprintfLoop args strAt (lit ++ fmt) i false = lit ++ vprintfLoop args strAt fmt i false := by
  induction lit with
  | nil => rfl
  | cons c lit ih =>
    have hc : c ≠ '%' := fun h => hlit (h ▸ List.mem_cons_self)
    rw [List.cons_append, vprintfLoop, if_neg hc, ih (fun h => hlit (List.mem_cons_of_mem c h)),
      List.cons_append]

end User

/-- The low 32 bits of a sign-extended `int` are the `int`. -/
theorem setWidth_signExtend_self (v : BitVec 32) : (v.signExtend 64).setWidth 32 = v := by
  apply BitVec.eq_of_toNat_eq
  rw [BitVec.toNat_setWidth, BitVec.toNat_signExtend, BitVec.toNat_setWidth]
  have hv := v.isLt
  split_ifs <;> omega

/-- The kernel prints `%x` with `sign = 1`: a negative `int` comes out as `-` and the numeral of
its magnitude, not as the numeral of its unsigned value. The user library narrows the `uint64`
of `%l` to printint's `int`: it prints the numeral of the low 32 bits, not of the value. -/
theorem printf_misrenders :
    (∀ v : BitVec 32, v.toInt < 0 → ∀ strAt : BitVec 64 → List Char,
      Kernel.printf ['%', 'x'] (fun _ => v.signExtend 64) strAt =
          '-' :: numeral Kernel.digits .hex v.toInt.natAbs ∧
        Kernel.printf ['%', 'x'] (fun _ => v.signExtend 64) strAt ≠
          numeral Kernel.digits .hex v.toNat) ∧
    (∀ v : BitVec 64, 2 ^ 32 ≤ v.toNat → ∀ strAt : BitVec 64 → List Char,
      User.vprintf ['%', 'l'] (fun _ => v) strAt = numeral User.digits .dec (v.toNat % 2 ^ 32) ∧
        User.vprintf ['%', 'l'] (fun _ => v) strAt ≠ numeral User.digits .dec v.toNat) := by
  constructor
  · intro v hv strAt
    have hrun : Kernel.printf ['%', 'x'] (fun _ => v.signExtend 64) strAt =
        '-' :: numeral Kernel.digits .hex v.toInt.natAbs := by
      simp only [Kernel.printf, Kernel.printfLoop, Kernel.printint, setWidth_signExtend_self,
        printintWith_signed, if_pos hv]
      simp
    refine ⟨hrun, fun h => ?_⟩
    -- the numeral's characters are digits, and `-` is none of them
    obtain ⟨k, hk, hdash⟩ := mem_numeral (h ▸ hrun ▸ List.mem_cons_self :
      '-' ∈ numeral Kernel.digits .hex v.toNat)
    have hdigits : ∀ k < 16, Kernel.digits.getD k '0' ≠ '-' := by decide
    exact hdigits k hk hdash
  · intro v hv strAt
    have hrun : User.vprintf ['%', 'l'] (fun _ => v) strAt = numeral User.digits .dec (v.toNat % 2 ^ 32) := by
      simp only [User.vprintf, User.vprintfLoop, User.printint, printintWith_unsigned,
        BitVec.toNat_setWidth]
      simp
    refine ⟨hrun, fun h => ?_⟩
    -- different numbers print differently
    have hinj := @numeral_injective User.digits .dec (by decide) (by decide)
    have := hinj (hrun.symm.trans h)
    omega

/-- `printf("%x", -1)` prints `-1`, and user `printf("%l", 2^32)` prints `0`. -/
theorem printf_minus_one_hex :
    (-1 : BitVec 32).toInt < 0 ∧
      Kernel.printf ['%', 'x'] (fun _ => (-1 : BitVec 32).signExtend 64) (fun _ => []) =
        '-' :: numeral Kernel.digits .hex (-1 : BitVec 32).toInt.natAbs ∧
      Kernel.printf ['%', 'x'] (fun _ => (-1 : BitVec 32).signExtend 64) (fun _ => []) ≠
        numeral Kernel.digits .hex (-1 : BitVec 32).toNat ∧
      2 ^ 32 ≤ (BitVec.ofNat 64 (2 ^ 32)).toNat ∧
      User.vprintf ['%', 'l'] (fun _ => BitVec.ofNat 64 (2 ^ 32)) (fun _ => []) =
        numeral User.digits .dec ((BitVec.ofNat 64 (2 ^ 32)).toNat % 2 ^ 32) ∧
      User.vprintf ['%', 'l'] (fun _ => BitVec.ofNat 64 (2 ^ 32)) (fun _ => []) ≠
        numeral User.digits .dec (BitVec.ofNat 64 (2 ^ 32)).toNat :=
  have hk := printf_misrenders.1 (-1) (by decide) (fun _ => [])
  have hu := printf_misrenders.2 (BitVec.ofNat 64 (2 ^ 32)) (by decide) (fun _ => [])
  ⟨by decide, hk.1, hk.2, by decide, hu.1, hu.2⟩

end Xv6
