import Mathlib.Data.Nat.Digits.Lemmas
import Mathlib.Algebra.Ring.Nat
import Mathlib.Algebra.Ring.Int.Defs

/-! # `lib/stdio.c`: `__vprintf`, `vsnprintf` and `snprintf`

Characters are the bytes they are stored as (`chr`). A `va_list` is the list of the remaining
arguments; `va_arg (args, T)` of an integer type takes the next integer argument and converts it
to `T` as the i386 ABI does (`toSigned`, `toUnsigned`: `int`, `long`, `ptrdiff_t` and `size_t`
are 32 bits, `long long` and `intmax_t` 64). Reading an argument of another kind, or past the
last, is undefined and is `none`; so is an `int` overflow while parsing a width or a precision,
and reading past the terminating null byte of the format.

`format_integer` fills `buf` from its least significant digit on (`digitLoop`), adds the
precision zeros (`padZeros`) and the `#o` zero, and then writes the padding, the sign, the `0x`
prefix, the zero padding, `buf` reversed and the padding of a left-justified field.
`vsnprintf` passes every character of `__vprintf` to `vsnprintf_helper`, which stores it while
`length` is below `max_length`.
-/

namespace Pintos.Libc
set_option autoImplicit false

/-- A character as the byte it is stored as. -/
def chr (c : Char) : UInt8 := c.toNat.toUInt8

/-- The bytes of a string literal, without the null terminator. -/
def bytes (s : String) : List UInt8 := s.toList.map chr

/-- `isdigit (c)` of `lib/ctype.h`. -/
def isdigit (c : UInt8) : Bool := chr '0' ≤ c && c ≤ chr '9'

/-- `isspace (c)` of `lib/ctype.h`. -/
def isspace (c : UInt8) : Bool :=
  c == chr ' ' || c == 12 || c == 10 || c == 13 || c == 9 || c == 11

/-- Conversion of an integer to a signed type of `bits` bits, two's complement. -/
def toSigned (bits : Nat) (v : Int) : Int := (v + 2 ^ (bits - 1)) % 2 ^ bits - 2 ^ (bits - 1)

/-- Conversion of an integer to an unsigned type of `bits` bits. -/
def toUnsigned (bits : Nat) (v : Int) : Nat := (v % 2 ^ bits).toNat

/-! ## Conversions -/

/-- The flags of `struct printf_conversion`, one field per bit. -/
structure Flags where
  minus : Bool := false
  plus : Bool := false
  space : Bool := false
  pound : Bool := false
  zero : Bool := false
  group : Bool := false
deriving DecidableEq, Repr

/-- The `type` of `struct printf_conversion`: the length modifier. -/
inductive ConvType
  | char | short | int | intmax | long | longlong | ptrdifft | sizet
deriving DecidableEq, Repr

/-- `struct printf_conversion`. -/
structure Conversion where
  flags : Flags
  width : Int
  precision : Int
  type : ConvType
deriving DecidableEq, Repr

/-- `struct integer_base`. -/
structure IntegerBase where
  base : Nat
  digits : List UInt8
  x : UInt8
  group : Nat

def base_d : IntegerBase := ⟨10, bytes "0123456789", 0, 3⟩
def base_o : IntegerBase := ⟨8, bytes "01234567", 0, 3⟩
def base_x : IntegerBase := ⟨16, bytes "0123456789abcdef", chr 'x', 4⟩
def base_X : IntegerBase := ⟨16, bytes "0123456789ABCDEF", chr 'X', 4⟩

/-- An argument of a variadic call: an integer of any type, a `char *` (`none` for `NULL`) or
a `void *`. -/
inductive Arg
  | int (v : Int)
  | str (s : Option (List UInt8))
  | ptr (p : Nat)
deriving DecidableEq, Repr

/-- `va_arg (args, T)` for an integer type `T`, before the conversion to `T`. -/
def vaInt : List Arg → Option (Int × List Arg)
  | .int v :: rest => some (v, rest)
  | _ => none

/-! ## `parse_conversion` -/

/-- The flag loop of `parse_conversion`. -/
def parseFlags (flags : Flags) : List UInt8 → Flags × List UInt8
  | [] => (flags, [])
  | c :: cs =>
    if c = chr '-' then parseFlags { flags with minus := true } cs
    else if c = chr '+' then parseFlags { flags with plus := true } cs
    else if c = chr ' ' then parseFlags { flags with space := true } cs
    else if c = chr '#' then parseFlags { flags with pound := true } cs
    else if c = chr '0' then parseFlags { flags with zero := true } cs
    -- the quote character
    else if c = 39 then parseFlags { flags with group := true } cs
    else (flags, c :: cs)

/-- `n = n * 10 + *format - '0'` while `isdigit (*format)`; `none` when the sum overflows an
`int`. -/
def parseDigits (n : Int) : List UInt8 → Option (Int × List UInt8)
  | [] => some (n, [])
  | c :: cs =>
    if isdigit c then
      if n * 10 + c.toNat < 2 ^ 31 then parseDigits (n * 10 + c.toNat - (chr '0').toNat) cs
      else none
    else some (n, c :: cs)

/-- A width or a precision: `*` takes the next `int` argument, anything else the digits. -/
def parseCount (format : List UInt8) (args : List Arg) : Option (Int × List UInt8 × List Arg) :=
  match format with
  | c :: cs =>
    if c = chr '*' then do
      let (v, args) ← vaInt args
      some (toSigned 32 v, cs, args)
    else do
      let (n, format) ← parseDigits 0 (c :: cs)
      some (n, format, args)
  | [] => some (0, [], args)

/-- The length modifier. -/
def parseType : List UInt8 → ConvType × List UInt8
  | c :: cs =>
    if c = chr 'h' then
      match cs with
      | d :: ds => if d = chr 'h' then (.char, ds) else (.short, d :: ds)
      | [] => (.short, [])
    else if c = chr 'j' then (.intmax, cs)
    else if c = chr 'l' then
      match cs with
      | d :: ds => if d = chr 'l' then (.longlong, ds) else (.long, d :: ds)
      | [] => (.long, [])
    else if c = chr 't' then (.ptrdifft, cs)
    else if c = chr 'z' then (.sizet, cs)
    else (.int, c :: cs)
  | [] => (.int, [])

/-- `parse_conversion (format, c, args)`: the conversion, the format from its conversion
character on, and the arguments left. -/
def parseConversion (format : List UInt8) (args : List Arg) :
    Option (Conversion × List UInt8 × List Arg) := do
  let (flags, format) := parseFlags {} format
  let flags := if flags.minus then { flags with zero := false } else flags
  let flags := if flags.plus then { flags with space := false } else flags
  -- field width; `-c->width` overflows for `INT_MIN`
  let (width, format, args) ← parseCount format args
  let minusFlags : Flags := { flags with minus := true }
  let (width, flags) ← if width < 0 then
      (if width = -2 ^ 31 then none else some (-width, minusFlags))
    else some (width, flags)
  -- precision
  let (precision, format, args) ← match format with
    | c :: cs =>
      if c = chr '.' then do
        let (p, format, args) ← parseCount cs args
        some (if p < 0 then -1 else p, format, args)
      else some (-1, c :: cs, args)
    | [] => some (-1, [], args)
  let flags := if precision ≥ 0 then { flags with zero := false } else flags
  let (type, format) := parseType format
  some ({ flags, width, precision, type }, format, args)

/-! ## `format_integer` and `format_string` -/

/-- `output_dup (ch, cnt, output, aux)`. -/
def outputDup (ch : UInt8) (cnt : Nat) : List UInt8 := List.replicate cnt ch

/-- The digit loop of `format_integer`, for at most `fuel` digits: `buf` in the order it is
filled, with a comma before every `b.group` digits when grouping. -/
def digitLoop (b : IntegerBase) (group : Bool) : Nat → Nat → Nat → List UInt8 → List UInt8
  | 0, _, _, buf => buf
  | fuel + 1, value, digitCnt, buf =>
    if value > 0 then
      let buf := if group && digitCnt > 0 && digitCnt % b.group == 0 then buf ++ [chr ','] else buf
      let buf := buf ++ [b.digits.getD (value % b.base) 0]
      digitLoop b group fuel (value / b.base) (digitCnt + 1) buf
    else buf

/-- `while (cp - buf < precision && cp < buf + sizeof buf - 1) *cp++ = '0';` -/
def padZeros (precision : Int) : Nat → List UInt8 → List UInt8
  | 0, buf => buf
  | fuel + 1, buf =>
    if (buf.length : Int) < precision ∧ buf.length < 63 then padZeros precision fuel (buf ++ [chr '0'])
    else buf

/-- The sign character of `format_integer`, `0` for none. -/
def signChar (isSigned negative : Bool) (flags : Flags) : UInt8 :=
  if isSigned then
    if flags.plus then (if negative then chr '-' else chr '+')
    else if flags.space then (if negative then chr '-' else chr ' ')
    else if negative then chr '-' else 0
  else 0

/-- `buf` of `format_integer` after the digits, the precision zeros and the `#o` zero, in the
order it is filled. -/
def integerBuf (value : Nat) (b : IntegerBase) (c : Conversion) : List UInt8 :=
  let buf := digitLoop b c.flags.group value value 0 []
  let precision : Int := if c.precision < 0 then 1 else c.precision
  let buf := padZeros precision 64 buf
  if c.flags.pound && b.base == 8 && (buf.isEmpty || buf.getLast? != some (chr '0')) then
    buf ++ [chr '0']
  else buf

/-- `pad_cnt` of `format_integer`: what the field width leaves after the buffer, the `0x` prefix
and the sign. -/
def padCount (width : Int) (bufLength : Nat) (x sign : UInt8) : Nat :=
  let padCnt : Int := width - bufLength - (if x ≠ 0 then 2 else 0) - (if sign ≠ 0 then 1 else 0)
  if padCnt < 0 then 0 else padCnt.toNat

/-- `format_integer (value, is_signed, negative, b, c, output, aux)`: the characters it
outputs. -/
def formatInteger (value : Nat) (isSigned negative : Bool) (b : IntegerBase) (c : Conversion) :
    List UInt8 :=
  let sign := signChar isSigned negative c.flags
  let x : UInt8 := if c.flags.pound && value ≠ 0 then b.x else 0
  let buf := integerBuf value b c
  let padCnt := padCount c.width buf.length x sign
  (if !(c.flags.minus || c.flags.zero) then outputDup (chr ' ') padCnt else []) ++
    (if sign ≠ 0 then [sign] else []) ++
    (if x ≠ 0 then [chr '0', x] else []) ++
    (if c.flags.zero then outputDup (chr '0') padCnt else []) ++
    buf.reverse ++
    (if c.flags.minus then outputDup (chr ' ') padCnt else [])

/-! ## The buffer of `format_integer` -/

/-- The character of a decimal or octal digit. -/
def digitChar (d : Nat) : UInt8 := (48 + d).toUInt8

theorem base_d_digit {d : Nat} (hd : d < 10) : base_d.digits.getD d 0 = digitChar d := by
  revert d
  decide

theorem base_o_digit {d : Nat} (hd : d < 8) : base_o.digits.getD d 0 = digitChar d := by
  revert d
  decide

/-- Without grouping, the digit loop writes the digits of `value` from the least significant
one on. The induction is on the fuel. -/
theorem digitLoop_eq (b : IntegerBase) (hb : 2 ≤ b.base) :
    ∀ (fuel value digitCnt : Nat) (buf : List UInt8), (Nat.digits b.base value).length ≤ fuel →
      digitLoop b false fuel value digitCnt buf =
        buf ++ (Nat.digits b.base value).map fun d => b.digits.getD d 0
  | 0, value, _, buf, hlen => by
    have hv : value = 0 := Nat.digits_eq_nil_iff_eq_zero.mp (List.length_eq_zero_iff.mp
      (Nat.le_zero.mp hlen))
    rw [hv, Nat.digits_zero, digitLoop, List.map_nil, List.append_nil]
  | fuel + 1, value, digitCnt, buf, hlen => by
    rw [digitLoop]
    by_cases hv : value > 0
    · rw [if_pos hv, Nat.digits_def' (by omega) hv] at *
      rw [List.length_cons] at hlen
      simp only [Bool.false_and, Bool.false_eq_true, if_false]
      rw [digitLoop_eq b hb fuel _ _ _ (by omega), List.map_cons, List.append_assoc,
        List.singleton_append]
    · have hv0 : value = 0 := by omega
      rw [if_neg hv, hv0, Nat.digits_zero, List.map_nil, List.append_nil]

theorem length_digits_le_self {b : Nat} (hb : 1 < b) (n : Nat) : (Nat.digits b n).length ≤ n :=
  (Nat.digits_length_le_iff hb n).mpr (Nat.lt_pow_self hb)

/-- The precision loop adds zeros up to the precision, stopping at 63 characters. The induction
is on the fuel. -/
theorem padZeros_eq (p : Int) :
    ∀ (fuel : Nat) (buf : List UInt8), 63 ≤ buf.length + fuel →
      padZeros p fuel buf =
        buf ++ List.replicate (min (p - buf.length).toNat (63 - buf.length)) (chr '0')
  | 0, buf, hlen => by
    rw [padZeros, show 63 - buf.length = 0 by omega, Nat.min_zero, List.replicate_zero,
      List.append_nil]
  | fuel + 1, buf, hlen => by
    rw [padZeros]
    by_cases hlt : (buf.length : Int) < p ∧ buf.length < 63
    · rw [if_pos hlt, padZeros_eq p fuel _ (by rw [List.length_append, List.length_singleton]; omega),
        List.append_assoc, List.singleton_append, ← List.replicate_succ]
      congr 2
      rw [List.length_append, List.length_singleton]
      omega
    · rw [if_neg hlt, show min (p - buf.length).toNat (63 - buf.length) = 0 by omega,
        List.replicate_zero, List.append_nil]

/-- The buffer of a conversion without grouping and without the `#o` zero: the digits, least
significant first, and the precision zeros. -/
theorem integerBuf_eq (value : Nat) (b : IntegerBase) (hb : 2 ≤ b.base) {c : Conversion}
    (hgroup : c.flags.group = false) (hoct : c.flags.pound = false ∨ b.base ≠ 8) :
    integerBuf value b c =
      (Nat.digits b.base value).map (fun d => b.digits.getD d 0) ++
        List.replicate (min ((if c.precision < 0 then 1 else c.precision) -
          (Nat.digits b.base value).length).toNat (63 - (Nat.digits b.base value).length))
          (chr '0') := by
  have hoct' : (c.flags.pound && b.base == 8) = false := by
    rcases hoct with h | h
    · rw [h, Bool.false_and]
    · rw [beq_false_of_ne h, Bool.and_false]
  rw [integerBuf, hgroup, digitLoop_eq b hb _ _ _ _ (length_digits_le_self hb value),
    List.nil_append, padZeros_eq _ _ _ (by omega)]
  rw [hoct', Bool.false_and, if_neg Bool.false_ne_true, List.length_map]

theorem ite_outputDup (P : Prop) [Decidable P] (ch : UInt8) (n : Nat) :
    (if P then outputDup ch n else []) = outputDup ch (if P then n else 0) := by
  split <;> rfl

/-- A conversion with no `0x` prefix: the padding, the sign, the zero padding, the buffer
reversed, and the padding of a left-justified field. -/
theorem formatInteger_no_x {value : Nat} {isSigned negative : Bool} {b : IntegerBase}
    {c : Conversion} (hx : (if (c.flags.pound && decide (value ≠ 0)) = true then b.x else 0) = 0) :
    formatInteger value isSigned negative b c =
      let pad := padCount c.width (integerBuf value b c).length 0 (signChar isSigned negative c.flags)
      outputDup (chr ' ') (if (!(c.flags.minus || c.flags.zero)) = true then pad else 0) ++
        (if signChar isSigned negative c.flags ≠ 0 then [signChar isSigned negative c.flags]
          else []) ++
        outputDup (chr '0') (if c.flags.zero = true then pad else 0) ++
        (integerBuf value b c).reverse ++
        outputDup (chr ' ') (if c.flags.minus = true then pad else 0) := by
  rw [formatInteger, hx]
  simp only [ne_eq, not_true_eq_false, if_false, List.append_nil, ite_outputDup]

/-- A decimal conversion without grouping: padding spaces, the sign, zeros and the digits of
`value` from the most significant one, and the padding of a left-justified field. -/
theorem formatInteger_decimal (value : Nat) (isSigned negative : Bool) {c : Conversion}
    (hgroup : c.flags.group = false) :
    ∃ a z e, formatInteger value isSigned negative base_d c =
      outputDup (chr ' ') a ++
        (if signChar isSigned negative c.flags ≠ 0 then [signChar isSigned negative c.flags]
          else []) ++
        (List.replicate z 0 ++ (Nat.digits 10 value).reverse).map digitChar ++
        outputDup (chr ' ') e := by
  have hx : (if (c.flags.pound && decide (value ≠ 0)) = true then base_d.x else 0) = 0 := by
    split <;> rfl
  have hdigits : (Nat.digits base_d.base value).map (fun d => base_d.digits.getD d 0) =
      (Nat.digits 10 value).map digitChar :=
    List.map_congr_left fun d hd => base_d_digit (Nat.digits_lt_base (by decide) hd)
  obtain ⟨Z, hZ⟩ : ∃ Z, integerBuf value base_d c =
      (Nat.digits 10 value).map digitChar ++ List.replicate Z (chr '0') := by
    rw [integerBuf_eq value base_d (by decide) hgroup (Or.inr (by decide)), hdigits]
    exact ⟨_, rfl⟩
  rw [formatInteger_no_x hx]
  dsimp only
  generalize padCount c.width (integerBuf value base_d c).length 0
    (signChar isSigned negative c.flags) = pad
  rw [hZ]
  refine ⟨if (!(c.flags.minus || c.flags.zero)) = true then pad else 0,
    (if c.flags.zero = true then pad else 0) + Z, if c.flags.minus = true then pad else 0, ?_⟩
  rw [List.reverse_append, List.reverse_replicate, List.map_append, List.map_replicate,
    List.replicate_add, List.map_reverse]
  simp only [outputDup, List.append_assoc]
  rfl

/-- The `w` lowest octal digits of `value`, most significant first. -/
def octal : Nat → Nat → List UInt8
  | 0, _ => []
  | w + 1, value => octal w (value / 8) ++ [digitChar (value % 8)]

@[simp] theorem length_octal : ∀ (w value : Nat), (octal w value).length = w
  | 0, _ => rfl
  | w + 1, value => by rw [octal, List.length_append, length_octal w, List.length_singleton]

/-- Below `8 ^ w`, the `w` octal digits are those of `Nat.digits` behind leading zeros. The
induction is on `w`. -/
theorem octal_eq_digits : ∀ {w value : Nat}, value < 8 ^ w →
    octal w value =
      (List.replicate (w - (Nat.digits 8 value).length) 0 ++ (Nat.digits 8 value).reverse).map
        digitChar
  | 0, value, hv => by
    rw [Nat.pow_zero, Nat.lt_one_iff] at hv
    subst hv
    rfl
  | w + 1, value, hv => by
    have hdiv : value / 8 < 8 ^ w := by
      rw [Nat.div_lt_iff_lt_mul (by decide), ← Nat.pow_succ]
      exact hv
    rw [octal, octal_eq_digits hdiv]
    rcases Nat.eq_zero_or_pos value with rfl | hpos
    · rw [Nat.digits_zero, List.length_nil, List.reverse_nil, List.append_nil, List.append_nil,
        Nat.sub_zero, Nat.sub_zero, List.replicate_succ', List.map_append]
      rfl
    · have hlen : (Nat.digits 8 (value / 8)).length ≤ w :=
        (Nat.digits_length_le_iff (by decide) _).mpr hdiv
      rw [Nat.digits_def' (by decide) hpos, List.length_cons, List.reverse_cons,
        show w + 1 - ((Nat.digits 8 (value / 8)).length + 1) = w - (Nat.digits 8 (value / 8)).length
          by omega, ← List.append_assoc]
      simp only [List.map_append, List.map_cons, List.map_nil]

theorem formatInteger_octal {value w : Nat} (hw : 0 < w) (hv : value < 8 ^ w) :
    formatInteger value false false base_o ⟨⟨false, false, false, false, true, false⟩, w, -1, .int⟩ =
      octal w value := by
  have hlen : (Nat.digits 8 value).length ≤ w := (Nat.digits_length_le_iff (by decide) _).mpr hv
  have hdigits : (Nat.digits base_o.base value).map (fun d => base_o.digits.getD d 0) =
      (Nat.digits 8 value).map digitChar :=
    List.map_congr_left fun d hd => base_o_digit (Nat.digits_lt_base (by decide) hd)
  -- a precision of `-1` pads an empty buffer, for the value `0`, with one zero
  have hbuf : integerBuf value base_o ⟨⟨false, false, false, false, true, false⟩, w, -1, .int⟩ =
      (Nat.digits 8 value).map digitChar ++
        List.replicate (if (Nat.digits 8 value).length = 0 then 1 else 0) (chr '0') := by
    rw [integerBuf_eq value base_o (by decide) rfl (Or.inl rfl), hdigits]
    congr 2
    show min ((1 : Int) - (Nat.digits 8 value).length).toNat (63 - (Nat.digits 8 value).length) = _
    split <;> omega
  rw [formatInteger_no_x rfl, octal_eq_digits hv]
  dsimp only
  rw [hbuf]
  generalize hZ : (if (Nat.digits 8 value).length = 0 then 1 else 0) = Z at *
  have hZw : (Nat.digits 8 value).length + Z ≤ w := by
    subst hZ
    split <;> omega
  have hpad : padCount w ((Nat.digits 8 value).map digitChar ++ List.replicate Z (chr '0')).length
      0 0 = w - (Nat.digits 8 value).length - Z := by
    rw [padCount, List.length_append, List.length_map, List.length_replicate]
    simp only [ne_eq, not_true_eq_false, if_false]
    split <;> omega
  have hzero : chr '0' = digitChar 0 := rfl
  simp only [show signChar false false ⟨false, false, false, false, true, false⟩ = 0 from rfl, hpad,
    ne_eq, not_true_eq_false, if_false, if_true, Bool.or_true, Bool.not_true, Bool.false_eq_true,
    List.append_nil, outputDup, List.replicate_zero, List.nil_append, List.reverse_append,
    List.reverse_replicate]
  rw [hzero, ← List.append_assoc, ← List.replicate_add, Nat.sub_add_cancel (by omega),
    List.map_append, List.map_replicate, List.map_reverse]

/-- `format_string (string, length, c, output, aux)`. -/
def formatString (string : List UInt8) (length : Nat) (c : Conversion) : List UInt8 :=
  (if c.width > length ∧ !c.flags.minus then outputDup (chr ' ') (c.width - length).toNat
    else []) ++
    string.take length ++
    (if c.width > length ∧ c.flags.minus then outputDup (chr ' ') (c.width - length).toNat
      else [])

/-! ## `__vprintf` -/

/-- The value of a signed conversion, `va_arg` by the length modifier. -/
def signedArg (type : ConvType) (args : List Arg) : Option (Int × List Arg) := do
  let (v, args) ← vaInt args
  let value : Int := match type with
    | .char => toSigned 8 (toSigned 32 v)
    | .short => toSigned 16 (toSigned 32 v)
    | .int => toSigned 32 v
    | .intmax => toSigned 64 v
    | .long => toSigned 32 v
    | .longlong => toSigned 64 v
    | .ptrdifft => toSigned 32 v
    | .sizet =>
      let value : Int := toUnsigned 32 v
      if value > (2 ^ 32 - 1) / 2 then value - (2 ^ 32 - 1) - 1 else value
  some (value, args)

/-- The value of an unsigned conversion, `va_arg` by the length modifier. -/
def unsignedArg (type : ConvType) (args : List Arg) : Option (Nat × List Arg) := do
  let (v, args) ← vaInt args
  let value : Nat := match type with
    | .char => toUnsigned 8 (toUnsigned 32 v)
    | .short => toUnsigned 16 (toUnsigned 32 v)
    | .int => toUnsigned 32 v
    | .intmax => toUnsigned 64 v
    | .long => toUnsigned 32 v
    | .longlong => toUnsigned 64 v
    | .ptrdifft => toUnsigned 64 (toSigned 32 v) &&& (2 ^ 32 - 1)
    | .sizet => toUnsigned 32 v
  some (value, args)

/-- The base of an unsigned conversion character. -/
def unsignedBase (ch : UInt8) : IntegerBase :=
  if ch = chr 'o' then base_o else if ch = chr 'u' then base_d
  else if ch = chr 'x' then base_x else base_X

/-- The loop of `__vprintf` over `format`, for at most `fuel` characters and nested
`__printf` calls: the characters it outputs. -/
def vprintfLoop : Nat → List UInt8 → List Arg → Option (List UInt8)
  | 0, _, _ => none
  | _ + 1, [], _ => some []
  | fuel + 1, f :: format, args =>
    if f ≠ chr '%' then (f :: ·) <$> vprintfLoop fuel format args
    else if format.head? = some (chr '%') then
      (chr '%' :: ·) <$> vprintfLoop fuel format.tail args
    else do
      let (c, format, args) ← parseConversion format args
      match format with
      -- the conversion character is the null terminator, and the loop then reads past it
      | [] => none
      | ch :: format =>
        if ch = chr 'd' ∨ ch = chr 'i' then do
          let (value, args) ← signedArg c.type args
          let out := formatInteger (toUnsigned 64 (if value < 0 then -value else value)) true
            (decide (value < 0)) base_d c
          (out ++ ·) <$> vprintfLoop fuel format args
        else if ch = chr 'o' ∨ ch = chr 'u' ∨ ch = chr 'x' ∨ ch = chr 'X' then do
          let (value, args) ← unsignedArg c.type args
          let out := formatInteger value false false (unsignedBase ch) c
          (out ++ ·) <$> vprintfLoop fuel format args
        else if ch = chr 'c' then do
          let (v, args) ← vaInt args
          let out := formatString [(toUnsigned 8 v).toUInt8] 1 c
          (out ++ ·) <$> vprintfLoop fuel format args
        else if ch = chr 's' then
          match args with
          | .str s :: args =>
            let s := s.getD (bytes "(null)")
            let out := formatString s (min s.length (toUnsigned 32 c.precision)) c
            (out ++ ·) <$> vprintfLoop fuel format args
          | _ => none
        else if ch = chr 'p' then
          match args with
          | .ptr p :: args =>
            let out := formatInteger p false false base_x { c with flags := { pound := true } }
            (out ++ ·) <$> vprintfLoop fuel format args
          | _ => none
        else if ch = chr 'f' ∨ ch = chr 'e' ∨ ch = chr 'E' ∨ ch = chr 'g' ∨ ch = chr 'G' ∨
            ch = chr 'n' then do
          let out ← vprintfLoop fuel (bytes "<<no %%%c in kernel>>") [.int ch.toNat]
          (out ++ ·) <$> vprintfLoop fuel format args
        else do
          let out ← vprintfLoop fuel (bytes "<<no %%%c conversion>>") [.int ch.toNat]
          (out ++ ·) <$> vprintfLoop fuel format args

/-- `__vprintf (format, args, output, aux)`: the characters passed to `output`. -/
def vprintf (format : List UInt8) (args : List Arg) : Option (List UInt8) :=
  vprintfLoop (2 * format.length + 24) format args

/-! ## `vsnprintf` -/

/-- `vsnprintf_helper (ch, aux)` on the bytes stored so far and `aux->length`; `none` when
`aux->length++` overflows. -/
def vsnprintfHelper (maxLength : Int) (st : List UInt8 × Int) (ch : UInt8) :
    Option (List UInt8 × Int) :=
  if st.2 + 1 < 2 ^ 31 then
    some (if st.2 < maxLength then st.1 ++ [ch] else st.1, st.2 + 1)
  else none

/-- `vsnprintf (buffer, buf_size, format, args)`: the bytes stored from `buffer` on, and the
length returned. -/
def vsnprintf (bufSize : Nat) (format : List UInt8) (args : List Arg) :
    Option (List UInt8 × Int) := do
  let maxLength : Int := if bufSize > 0 then toSigned 32 (bufSize - 1) else 0
  let out ← vprintf format args
  let (stored, length) ← out.foldlM (vsnprintfHelper maxLength) ([], 0)
  some (if bufSize > 0 then stored ++ [0] else stored, length)

/-! ## One integer conversion -/

theorem parseConversion_percent {t : List UInt8} {args args' : List Arg} {c : Conversion}
    {rest : List UInt8} (h : parseConversion (chr '%' :: t) args = some (c, rest, args')) :
    rest = chr '%' :: t := by
  have hflags : parseFlags {} (chr '%' :: t) = ({}, chr '%' :: t) := by
    rw [parseFlags]
    simp only [show chr '%' ≠ chr '-' by decide, show chr '%' ≠ chr '+' by decide,
      show chr '%' ≠ chr ' ' by decide, show chr '%' ≠ chr '#' by decide,
      show chr '%' ≠ chr '0' by decide, show chr '%' ≠ 39 by decide, if_false]
  have hcount : parseCount (chr '%' :: t) args = some (0, chr '%' :: t, args) := by
    rw [parseCount, if_neg (by decide), parseDigits, if_neg (by decide)]
    rfl
  have htype : parseType (chr '%' :: t) = (.int, chr '%' :: t) := by
    simp only [parseType, show chr '%' ≠ chr 'h' by decide, show chr '%' ≠ chr 'j' by decide,
      show chr '%' ≠ chr 'l' by decide, show chr '%' ≠ chr 't' by decide,
      show chr '%' ≠ chr 'z' by decide, if_false]
  rw [parseConversion, hflags] at h
  simp only [Option.bind_eq_bind, hcount, Option.bind_some, Int.reduceLT, if_false,
    show chr '%' ≠ chr '.' by decide, htype, Option.some.injEq, Prod.mk.injEq] at h
  exact h.2.1.symm

theorem vprintf_conversion {spec : List UInt8} {args args' : List Arg} {c : Conversion}
    {ch : UInt8} (hparse : parseConversion spec args = some (c, [ch], args'))
    (hch : ch ≠ chr '%') :
    vprintf (chr '%' :: spec) args = vprintfLoop (2 * spec.length + 25 + 1) (chr '%' :: spec) args ∧
      spec.head? ≠ some (chr '%') := by
  refine ⟨rfl, fun hhead => ?_⟩
  obtain ⟨t, rfl⟩ : ∃ t, spec = chr '%' :: t := by
    cases spec with
    | nil => exact absurd hhead (by simp)
    | cons x t =>
      rw [List.head?_cons, Option.some.injEq] at hhead
      exact ⟨t, by rw [hhead]⟩
  have := parseConversion_percent hparse
  rw [List.cons.injEq] at this
  exact hch this.1

theorem vprintf_signed {spec : List UInt8} {args args' rest : List Arg} {c : Conversion}
    {ch : UInt8} {value : Int} (hparse : parseConversion spec args = some (c, [ch], args'))
    (hch : ch = chr 'd' ∨ ch = chr 'i') (harg : signedArg c.type args' = some (value, rest)) :
    vprintf (chr '%' :: spec) args =
      some (formatInteger (toUnsigned 64 (if value < 0 then -value else value)) true
        (decide (value < 0)) base_d c) := by
  obtain ⟨hfuel, hhead⟩ := vprintf_conversion hparse (by rcases hch with rfl | rfl <;> decide)
  rw [hfuel, vprintfLoop, if_neg (fun h => h rfl), if_neg hhead]
  simp only [Option.bind_eq_bind, hparse, Option.bind_some]
  rw [if_pos hch, harg, Option.bind_some, vprintfLoop]
  simp only [Option.map_eq_map, Option.map_some, List.append_nil]

theorem vprintf_unsigned {spec : List UInt8} {args args' rest : List Arg} {c : Conversion}
    {ch : UInt8} {value : Nat} (hparse : parseConversion spec args = some (c, [ch], args'))
    (hch : ch = chr 'o' ∨ ch = chr 'u' ∨ ch = chr 'x' ∨ ch = chr 'X')
    (harg : unsignedArg c.type args' = some (value, rest)) :
    vprintf (chr '%' :: spec) args = some (formatInteger value false false (unsignedBase ch) c) := by
  have hne : ch ≠ chr '%' ∧ ¬(ch = chr 'd' ∨ ch = chr 'i') := by
    rcases hch with rfl | rfl | rfl | rfl <;> decide
  obtain ⟨hfuel, hhead⟩ := vprintf_conversion hparse hne.1
  rw [hfuel, vprintfLoop, if_neg (fun h => h rfl), if_neg hhead]
  simp only [Option.bind_eq_bind, hparse, Option.bind_some]
  rw [if_neg hne.2, if_pos hch, harg, Option.bind_some, vprintfLoop]
  simp only [Option.map_eq_map, Option.map_some, List.append_nil]

/-! ## What `vsnprintf` stores -/

/-- `vsnprintf_helper` over the output stores the characters while `length` is below
`max_length`. The induction is on the output. -/
theorem foldlM_vsnprintfHelper (maxLength : Int) :
    ∀ (out : List UInt8) (st : List UInt8 × Int), 0 ≤ st.2 → st.2 + out.length < 2 ^ 31 →
      out.foldlM (vsnprintfHelper maxLength) st =
        some (st.1 ++ out.take (maxLength - st.2).toNat, st.2 + out.length)
  | [], st, _, _ => by
    rw [List.foldlM_nil, List.take_nil, List.append_nil, List.length_nil, Int.natCast_zero,
      Int.add_zero]
    rfl
  | ch :: out, st, h0, hlen => by
    rw [List.length_cons] at hlen
    have hstep : vsnprintfHelper maxLength st ch =
        some (if st.2 < maxLength then st.1 ++ [ch] else st.1, st.2 + 1) := by
      rw [vsnprintfHelper, if_pos (by omega)]
    rw [List.foldlM_cons, hstep, Option.bind_eq_bind, Option.bind_some,
      foldlM_vsnprintfHelper maxLength out _ (by dsimp only; omega) (by dsimp only; omega)]
    dsimp only
    by_cases hlt : st.2 < maxLength
    · rw [if_pos hlt, show (maxLength - st.2).toNat = (maxLength - (st.2 + 1)).toNat + 1 by omega,
        List.take_succ_cons, List.append_assoc, List.singleton_append, List.length_cons]
      congr 2
      omega
    · rw [if_neg hlt, show (maxLength - st.2).toNat = 0 by omega,
        show (maxLength - (st.2 + 1)).toNat = 0 by omega, List.take_zero, List.take_zero,
        List.length_cons]
      congr 2
      omega

/-- For a buffer of at most `2 ^ 31` bytes, `vsnprintf` stores the first `buf_size - 1`
characters of the output and a null terminator, and returns the length of the output. -/
theorem vsnprintf_eq {bufSize : Nat} {format : List UInt8} {args : List Arg} {out : List UInt8}
    (hn : bufSize ≤ 2 ^ 31) (hout : vprintf format args = some out) (hlen : out.length < 2 ^ 31) :
    vsnprintf bufSize format args =
      some (if bufSize > 0 then out.take (bufSize - 1) ++ [0] else [], (out.length : Int)) := by
  have hmax : (if bufSize > 0 then toSigned 32 ((bufSize : Int) - 1) else 0) =
      ((bufSize - 1 : Nat) : Int) := by
    unfold toSigned
    split_ifs <;> omega
  rw [vsnprintf, hmax, hout, Option.bind_eq_bind, Option.bind_some,
    foldlM_vsnprintfHelper _ out ([], 0) (Int.le_refl 0) (by dsimp only; omega)]
  simp only [Option.bind_eq_bind, Option.bind_some, List.nil_append, Int.sub_zero,
    Int.toNat_natCast, Int.zero_add]
  split_ifs with h
  · rfl
  · rw [show bufSize - 1 = 0 by omega, List.take_zero]

/-- A run of `vsnprintf_helper` that returns has counted every character, below `INT_MAX`. The
induction is on the output. -/
theorem foldlM_vsnprintfHelper_length (maxLength : Int) :
    ∀ (out : List UInt8) (st r : List UInt8 × Int), st.2 < 2 ^ 31 →
      out.foldlM (vsnprintfHelper maxLength) st = some r → r.2 = st.2 + out.length ∧ r.2 < 2 ^ 31
  | [], st, r, hst, h => by
    rw [List.foldlM_nil] at h
    cases h
    exact ⟨by rw [List.length_nil, Int.natCast_zero, Int.add_zero], hst⟩
  | ch :: out, st, r, _, h => by
    rw [List.foldlM_cons, Option.bind_eq_bind] at h
    by_cases hlen : st.2 + 1 < 2 ^ 31
    · rw [vsnprintfHelper, if_pos hlen, Option.bind_some] at h
      have := foldlM_vsnprintfHelper_length maxLength out _ r hlen h
      rw [List.length_cons]
      omega
    · rw [vsnprintfHelper, if_neg hlen, Option.bind_none] at h
      cases h

theorem vsnprintf_some {bufSize : Nat} {format : List UInt8} {args : List Arg} {out : List UInt8}
    {buf : List UInt8} {length : Int} (hn : bufSize ≤ 2 ^ 31)
    (hout : vprintf format args = some out) (h : vsnprintf bufSize format args = some (buf, length)) :
    buf = (if bufSize > 0 then out.take (bufSize - 1) ++ [0] else []) ∧ length = out.length := by
  have hlen : out.length < 2 ^ 31 := by
    rw [vsnprintf, hout, Option.bind_eq_bind, Option.bind_some, Option.bind_eq_bind] at h
    cases hfold : out.foldlM (vsnprintfHelper
        (if bufSize > 0 then toSigned 32 ((bufSize : Int) - 1) else 0)) ([], 0) with
    | none => rw [hfold] at h; cases h
    | some r =>
      have := foldlM_vsnprintfHelper_length _ out ([], 0) r (by decide) hfold
      omega
  rw [vsnprintf_eq hn hout hlen, Option.some.injEq, Prod.mk.injEq] at h
  exact ⟨h.1.symm, h.2.symm⟩

/-- `snprintf (buffer, buf_size, format, ...)`. -/
def snprintf (bufSize : Nat) (format : List UInt8) (args : List Arg) :
    Option (List UInt8 × Int) :=
  vsnprintf bufSize format args

/-- Two conversions whose characters differ from what the flags ask for. A negative `*` width
sets `MINUS` after `-` has cleared `ZERO`, so `%0*d` pads with zeros in front and with spaces
behind; and the precision zeros are counted with the grouping commas and are not grouped. -/
theorem format_integer_pads_twice :
    snprintf 16 (bytes "%0*d") [.int (-5), .int 42] = some (bytes "00042   " ++ [0], 8) ∧
      snprintf 16 (chr '%' :: 39 :: bytes ".5d") [.int 1234] = some (bytes "1,234" ++ [0], 5) := by
  decide

example : snprintf 32 (chr '%' :: 39 :: bytes "d") [.int 1234] = some (bytes "1,234" ++ [0], 5) := by decide
example : snprintf 32 (bytes "%-5d|%+.3x|%#o") [.int (-12), .int 255, .int 8] =
    some (bytes "-12  |0ff|010" ++ [0], 13) := by decide

/-- `snprintf (buf, w + 1, "%0wo", value)` for a value of at most `w` octal digits stores the `w`
digits and the terminator. -/
theorem snprintf_octal {spec : List UInt8} {w : Nat} {value : Int}
    (hparse : parseConversion spec [.int value] =
      some (⟨⟨false, false, false, false, true, false⟩, w, -1, .int⟩, [chr 'o'], [.int value]))
    (hw : 0 < w) (hw31 : w < 2 ^ 31) (hv : 0 ≤ value ∧ value < 8 ^ w) (hv32 : value < 2 ^ 32) :
    snprintf (w + 1) (chr '%' :: spec) [.int value] = some (octal w value.toNat ++ [0], (w : Int)) := by
  have harg : unsignedArg .int [.int value] = some (value.toNat, []) := by
    show some (toUnsigned 32 value, []) = _
    rw [toUnsigned, Int.emod_eq_of_lt hv.1 hv32]
  have hvn : value.toNat < 8 ^ w := by
    have h8 : ((8 ^ w : Nat) : Int) = 8 ^ w := Int.natCast_pow 8 w
    omega
  have hout := vprintf_unsigned hparse (Or.inl rfl) harg
  rw [show unsignedBase (chr 'o') = base_o from rfl, formatInteger_octal hw hvn] at hout
  rw [snprintf, vsnprintf_eq (by omega) hout (by rw [length_octal]; exact hw31), if_pos (by omega),
    Nat.add_sub_cancel, List.take_of_length_le (by rw [length_octal]), length_octal]

theorem snprintf_07o {value : Int} (hv : 0 ≤ value ∧ value < 8 ^ 7) :
    snprintf 8 (bytes "%07o") [.int value] = some (octal 7 value.toNat ++ [0], 7) :=
  snprintf_octal rfl (by decide) (by decide) hv (by omega)

theorem snprintf_011o {value : Int} (hv : 0 ≤ value ∧ value < 2 ^ 32) :
    snprintf 12 (bytes "%011o") [.int value] = some (octal 11 value.toNat ++ [0], 11) :=
  snprintf_octal rfl (by decide) (by decide) ⟨hv.1, by omega⟩ hv.2

end Pintos.Libc
