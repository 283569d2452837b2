import Mathlib

/-!
# Reading from a byte stream

The pieces of Go's `io`, `bufio`, `bytes` and `strconv` that a reader of a framed stream is built
from, over the stream as the list of bytes it has yet to return. Errors are the readers' own:
`io.EOF`, `io.ErrUnexpectedEOF` and `bufio.ErrBufferFull`.

* `readSlice` is `bufio.Reader.ReadSlice`: the bytes up to a delimiter, which must arrive within
  the buffer. A line that fits is read exactly (`readSlice_append`).
* `readFull` is `io.ReadFull`, and `limitedRead` is a read of an `io.LimitedReader`, whose count
  may be zero or negative. Reading a limited reader whose count is the length of what comes first
  reads a prefix of it (`limitedRead_append`).
* `trimRight` is `bytes.TrimRight`: trailing bytes of a cut set go, the rest stays
  (`trimRight_append`).
* `parseUint` is `strconv.ParseUint` with an explicit base: digits of the base with a value that
  fits in the bit size parse to that value (`parseUint_of_digits`).
* `int64` is Go's conversion of a `uint64` to an `int64`: values from `2^63` on wrap to negative,
  so the conversion of a wrapped difference of two numbers below `2^63` is their difference
  (`int64_sub`).
-/

namespace WeaveNet.Lib

/-- The reader errors the models meet: `io.EOF`, `io.ErrUnexpectedEOF`, `bufio.ErrBufferFull`. -/
inductive ReadError where
  | eof
  | unexpectedEOF
  | bufferFull
  deriving DecidableEq, Repr

/-- `defaultBufSize`, the size of the buffer of `bufio.NewReader`. -/
def defaultBufSize : Nat := 4096

section Lines

variable {α : Type} [DecidableEq α]

/-- The elements up to and including the first `delim`, and what follows; `none` without one. -/
def splitAfter (delim : α) : List α → Option (List α × List α)
  | [] => none
  | c :: cs => if c = delim then some ([c], cs) else (splitAfter delim cs).map fun p => (c :: p.1, p.2)

/-- `b.ReadSlice(delim)` of a `bufio.Reader` of buffer size `size`: the line up to and including
`delim` when it ends within the buffer; otherwise `ErrBufferFull` once the buffer is full, or
`io.EOF` when the input ends first. A failed read consumes what it returned. -/
def readSlice (size : Nat) (delim : α) (b : List α) : Except ReadError (List α) × List α :=
  match splitAfter delim b with
  | some (line, rest) => if line.length ≤ size then (.ok line, rest) else (.error .bufferFull, b.drop size)
  | none => if b.length < size then (.error .eof, []) else (.error .bufferFull, b.drop size)

theorem splitAfter_append {delim : α} {line : List α} (hd : delim ∉ line) (rest : List α) :
    splitAfter delim (line ++ delim :: rest) = some (line ++ [delim], rest) := by
  induction line with
  | nil => simp [splitAfter]
  | cons c cs ih =>
    have hc : c ≠ delim := fun h => hd (h ▸ List.mem_cons_self ..)
    rw [List.cons_append, splitAfter, if_neg hc, ih (fun h => hd (List.mem_cons_of_mem _ h))]
    rfl

/-- **A line that fits in the buffer is read exactly.** -/
theorem readSlice_append {size : Nat} {delim : α} {line : List α} (hd : delim ∉ line)
    (hl : line.length < size) (rest : List α) :
    readSlice size delim (line ++ delim :: rest) = (.ok (line ++ [delim]), rest) := by
  have hfit : (line ++ [delim]).length ≤ size := by
    rw [List.length_append, List.length_singleton]
    omega
  simp only [readSlice, splitAfter_append hd]
  exact if_pos hfit

/-- `bytes.TrimRight(s, cutset)`: `s` without its trailing elements of `cutset`. -/
def trimRight (cutset : List α) (s : List α) : List α :=
  (s.reverse.dropWhile fun c => c ∈ cutset).reverse

/-- Trimming keeps a part that has no element of the cut set, and drops what follows it from the
cut set. -/
theorem trimRight_append {cutset s t : List α} (hs : ∀ c ∈ s, c ∉ cutset)
    (ht : ∀ c ∈ t, c ∈ cutset) : trimRight cutset (s ++ t) = s := by
  rw [trimRight, List.reverse_append, List.dropWhile_append_of_pos (by simpa using ht)]
  cases hr : s.reverse with
  | nil => simp [List.reverse_eq_nil_iff.1 hr]
  | cons c cs =>
    have hc : c ∉ cutset := hs c (List.mem_reverse.1 (hr ▸ List.mem_cons_self ..))
    rw [List.dropWhile_cons_of_neg (by simpa using hc), ← hr, List.reverse_reverse]

end Lines

/-! ## Fixed-size and limited reads -/

section Reads

variable {α : Type}

/-- `io.ReadFull(r, buf[:k])`: exactly `k` elements, or `io.EOF` when there are none and
`io.ErrUnexpectedEOF` when there are some but fewer. -/
def readFull (k : Nat) (r : List α) : Except ReadError (List α) × List α :=
  if k ≤ r.length then (.ok (r.take k), r.drop k)
  else if r = [] then (.error .eof, []) else (.error .unexpectedEOF, [])

theorem readFull_append {b : List α} (r : List α) : readFull b.length (b ++ r) = (.ok b, r) := by
  rw [readFull, if_pos (by simp), List.take_left, List.drop_left]

/-- Reading up to `k` elements from an `io.LimitedReader` with count `n` over `r`, as repeated
`Read`s do until they have `k` or meet EOF: the elements read, the count left, and what is left of
`r`. A count of zero or less reads nothing. -/
def limitedRead (n : Int) (k : Nat) (r : List α) : List α × Int × List α :=
  let m := min k (min n.toNat r.length)
  (r.take m, n - m, r.drop m)

/-- **A limited read of what comes first.** With the count at the length of `d`, a read of `k`
elements reads the first `k` of `d`, and leaves the rest of `d`, counted, before what follows. -/
theorem limitedRead_append (d s : List α) (k : Nat) :
    limitedRead d.length k (d ++ s) = (d.take k, ((d.drop k).length : Int), d.drop k ++ s) := by
  have hm : min k (min (d.length : Int).toNat (d ++ s).length) = min k d.length := by
    simp only [Int.toNat_natCast, List.length_append]
    omega
  simp only [limitedRead, hm, List.take_append, List.drop_append, List.length_drop]
  refine Prod.ext ?_ (Prod.ext ?_ ?_)
  · have hk : min k d.length - d.length = 0 := by omega
    simp [hk]
  · simp only
    omega
  · have hk : min k d.length - d.length = 0 := by omega
    have hd : d.drop (min k d.length) = d.drop k := by
      rcases Nat.le_total k d.length with h | h
      · rw [Nat.min_eq_left h]
      · rw [Nat.min_eq_right h, List.drop_length, List.drop_of_length_le h]
    simp [hk, hd]

end Reads

/-! ## Numbers -/

/-- The errors of `strconv.ParseUint`: a byte that is not a digit of the base (`ErrSyntax`), and a
value out of range (`ErrRange`). -/
inductive NumError where
  | errDigit
  | errRange
  deriving DecidableEq, Repr

/-- The value of a digit byte in `strconv.ParseUint`: `0`-`9`, then the letters of either case from
`10` on (`lower(c)` sets the bit that separates the cases). -/
def digitVal (c : UInt8) : Option Nat :=
  if 48 ≤ c ∧ c ≤ 57 then some (c - 48).toNat
  else
    let l := c ||| 32
    if 97 ≤ l ∧ l ≤ 122 then some (l - 97 + 10).toNat else none

/-- `maxUint64`. -/
def maxUint64 : Nat := 2 ^ 64 - 1

/-- The digit loop of `strconv.ParseUint`, on the value `n` read so far, with `n` and the sums
computed in `uint64`. -/
def parseUintLoop (base maxVal : Nat) : Nat → List UInt8 → Nat × Option NumError
  | n, [] => (n, none)
  | n, c :: cs =>
    match digitVal c with
    | none => (0, some .errDigit)
    | some d =>
      if d ≥ base then (0, some .errDigit)
      -- `cutoff`: the smallest number whose product with the base overflows
      else if n ≥ maxUint64 / base + 1 then (maxVal, some .errRange)
      else
        let n := n * base
        let n1 := (n + d) % 2 ^ 64
        if n1 < n ∨ n1 > maxVal then (maxVal, some .errRange) else parseUintLoop base maxVal n1 cs

/-- `strconv.ParseUint(s, base, bitSize)` for a base from `2` to `36` given explicitly, which admits
no prefix and no underscore. -/
def parseUint (base bitSize : Nat) (s : List UInt8) : Nat × Option NumError :=
  if s = [] then (0, some .errDigit) else parseUintLoop base (2 ^ bitSize - 1) 0 s

/-- The value of a digit string in a base, from `n` on. -/
def digitsValueFrom (base : Nat) (n : Nat) (s : List UInt8) : Nat :=
  s.foldl (fun n c => n * base + (digitVal c).getD 0) n

/-- The value of a digit string in a base. -/
def digitsValue (base : Nat) (s : List UInt8) : Nat := digitsValueFrom base 0 s

section Parse

variable {base maxVal : Nat}

theorem le_digitsValueFrom (hb : 0 < base) (n : Nat) (s : List UInt8) :
    n ≤ digitsValueFrom base n s := by
  induction s generalizing n with
  | nil => exact Nat.le_refl n
  | cons c cs ih =>
    have hstep : n ≤ n * base + (digitVal c).getD 0 :=
      Nat.le_trans (Nat.le_mul_of_pos_right n hb) (Nat.le_add_right _ _)
    exact Nat.le_trans hstep (ih _)

/-- The loop reads digits of the base whose value fits into that value; no check of `uint64`
overflow fires, as every partial value is at most the whole. -/
theorem parseUintLoop_of_digits (hb : 2 ≤ base) (hmax : maxVal ≤ maxUint64) :
    ∀ (n : Nat) (s : List UInt8), (∀ c ∈ s, ∃ d, digitVal c = some d ∧ d < base) →
      digitsValueFrom base n s ≤ maxVal →
      parseUintLoop base maxVal n s = (digitsValueFrom base n s, none)
  | n, [], _, _ => rfl
  | n, c :: cs, hd, hv => by
    obtain ⟨d, hc, hdb⟩ := hd c (List.mem_cons_self ..)
    have hrest : ∀ c ∈ cs, ∃ d, digitVal c = some d ∧ d < base :=
      fun c' h => hd c' (List.mem_cons_of_mem _ h)
    -- the value after this digit bounds the product and the sum
    have hle : n * base + d ≤ maxVal := by
      have : n * base + d ≤ digitsValueFrom base (n * base + d) cs :=
        le_digitsValueFrom (by omega) _ _
      simp only [digitsValueFrom, List.foldl_cons, hc, Option.getD_some] at hv
      exact Nat.le_trans this hv
    have hmaxv : maxVal < 2 ^ 64 := by
      unfold maxUint64 at hmax
      omega
    have hcut : ¬n ≥ maxUint64 / base + 1 := by
      have : n ≤ maxUint64 / base := (Nat.le_div_iff_mul_le (by omega)).2 (by omega)
      omega
    have hmod : (n * base + d) % 2 ^ 64 = n * base + d := Nat.mod_eq_of_lt (by omega)
    have hno : ¬((n * base + d) % 2 ^ 64 < n * base ∨ (n * base + d) % 2 ^ 64 > maxVal) := by
      omega
    simp only [parseUintLoop, hc, if_neg (Nat.not_le.2 hdb), if_neg hcut, if_neg hno]
    rw [hmod, parseUintLoop_of_digits hb hmax _ cs hrest (by simpa [digitsValueFrom, hc] using hv)]
    simp [digitsValueFrom, hc]

/-- **Digits of the base whose value fits in the bit size parse to that value.** -/
theorem parseUint_of_digits {bitSize : Nat} {s : List UInt8} (hb : 2 ≤ base) (hbs : bitSize ≤ 64)
    (hne : s ≠ []) (hd : ∀ c ∈ s, ∃ d, digitVal c = some d ∧ d < base)
    (hv : digitsValue base s < 2 ^ bitSize) :
    parseUint base bitSize s = (digitsValue base s, none) := by
  have hmax : 2 ^ bitSize - 1 ≤ maxUint64 := by
    have := Nat.pow_le_pow_right (show 0 < 2 by decide) hbs
    unfold maxUint64
    omega
  rw [parseUint, if_neg hne]
  exact parseUintLoop_of_digits hb hmax 0 s hd (by unfold digitsValue at hv; omega)

end Parse

/-- Go's conversion `int64(n)` of a `uint64`: two's complement, so values from `2^63` on are
negative. -/
def int64 (n : Nat) : Int := Int.bmod n (2 ^ 64)

theorem int64_of_lt {n : Nat} (h : n < 2 ^ 63) : int64 n = n := by
  have hn : (n : Int) < 2 ^ 63 := by exact_mod_cast h
  apply Int.bmod_eq_of_le_mul_two <;> rw [Int.natCast_pow] <;> omega

example : int64 (2 ^ 63) = -2 ^ 63 := by decide

/-- `int64(a - b)` of two `uint64`s below `2 ^ 63` is their difference, whatever its sign: the
subtraction wraps, and the conversion unwraps it. -/
theorem int64_sub {a b : Nat} (ha : a < 2 ^ 63) (hb : b < 2 ^ 63) :
    int64 ((a + 2 ^ 64 - b) % 2 ^ 64) = (a : Int) - b := by
  have hcast : (((a + 2 ^ 64 - b) % 2 ^ 64 : Nat) : Int) =
      ((a : Int) - b + ((2 ^ 64 : Nat) : Int)) % ((2 ^ 64 : Nat) : Int) := by
    rw [Int.natCast_emod, Nat.cast_sub (by omega)]
    push_cast
    ring_nf
  unfold int64
  rw [hcast, Int.emod_bmod, Int.add_bmod_right]
  apply Int.bmod_eq_of_le_mul_two <;> push_cast <;> omega

end WeaveNet.Lib
