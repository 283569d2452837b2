import WeaveNet.Lib.Scan

/-!
# The chunked-transfer reader

The model of `ChunkedReader` (`proxy/chunked.go`), which the proxy uses to pass a chunked HTTP
body on chunk by chunk. The reader's `bufio.Reader` is the list of bytes it has yet to return;
`cr.chunk` is the `io.LimitedReader` of the current chunk, by the count it has left. `Next` is
`checkPrevious` (drain the previous chunk and check the CRLF after it, or make the limited reader
before the first chunk) followed by `setupNext` (read a size line and set the count). A consumer
interleaves calls of `Next` with reads of `Chunk()` (`session`).

`session_encodeBody` is the reader on a well-formed body: whatever prefix of each chunk the
consumer reads, each `Next` yields the next chunk, then `Next` answers `false` with `Err()` nil
and keeps doing so, and the bytes after the last chunk stay unread.

`next_accepts_truncated_and_oversized` is two inputs that are not such a body on which `Next`
still ends with `Err()` nil. A body cut off right after a chunk's data reads as if it had ended:
draining meets the end of the input, and `io.ReadFull` then reports `io.EOF`, which `Err()` takes
for the end of the body. And a chunk size from `2^63` on is converted to a negative count, so the
chunk reads as empty and the data after it as the next size line.
-/

namespace WeaveNet.Proxy

open Lib

/-- The errors `cr.err` holds: those of the reader (`io.EOF`, `io.ErrUnexpectedEOF`),
`ErrLineTooLong`, `ErrInvalidChunkLength`, and the malformed end of a chunk. -/
inductive ChunkErr where
  | read (e : ReadError)
  | lineTooLong
  | invalidChunkLength
  | malformed
  deriving DecidableEq, Repr

/-- The text of each error. -/
def ChunkErr.text : ChunkErr → String
  | .read .eof => "EOF"
  | .read .unexpectedEOF => "unexpected EOF"
  | .read .bufferFull => "bufio: buffer full"
  | .lineTooLong => "header line too long"
  | .invalidChunkLength => "invalid byte in chunk length"
  | .malformed => "malformed chunked encoding"

/-- `ChunkedReader`: what its `bufio.Reader` has yet to return, the count of the `io.LimitedReader`
of the current chunk (`none` before the first `Next`), and the error. The scratch `buf` is local to
`Next` here. -/
structure ChunkedReader where
  r : List UInt8
  chunk : Option Int
  err : Option ChunkErr
  deriving DecidableEq, Repr

/-- `NewChunkedReader(r)` on an input that is not yet a `bufio.Reader`. -/
def newChunkedReader (input : List UInt8) : ChunkedReader := ⟨input, none, none⟩

/-- `readLine(b)`: a line up to a newline that fits in the buffer, with trailing blanks, tabs, CRs
and LFs trimmed. -/
def readLine (b : List UInt8) : Except ChunkErr (List UInt8) × List UInt8 :=
  match readSlice defaultBufSize 10 b with
  | (.ok p, b) => (.ok (trimRight [32, 9, 10, 13] p), b)
  -- a line was asked for, so the end of the input is unexpected
  | (.error .eof, b) => (.error (.read .unexpectedEOF), b)
  | (.error .bufferFull, b) => (.error .lineTooLong, b)
  | (.error e, b) => (.error (.read e), b)

namespace ChunkedReader

/-- `cr.beginChunk()`: read a size line and parse it as a 64-bit hexadecimal number. A number out
of range still comes back, as `ParseUint` returns it, with the error. -/
def beginChunk (cr : ChunkedReader) : Nat × ChunkedReader :=
  match readLine cr.r with
  | (.error e, r) => (0, { cr with r, err := some e })
  | (.ok line, r) =>
    match parseUint 16 64 line with
    | (n, none) => (n, { cr with r, err := none })
    | (n, some _) => (n, { cr with r, err := some .invalidChunkLength })

/-- The first half of `cr.Next()`: drain what the consumer left of the previous chunk
(`io.Copy(ioutil.Discard, cr.chunk)`, which takes the end of the input for the end of the chunk)
and check the two bytes after it; before the first chunk, make the limited reader. -/
def checkPrevious (cr : ChunkedReader) : ChunkedReader :=
  match cr.chunk with
  | some n =>
    let (_, n, r) := limitedRead n cr.r.length cr.r
    match readFull 2 r with
    | (.error e, r) => ⟨r, some n, some (.read e)⟩
    | (.ok buf, r) => if buf ≠ [13, 10] then ⟨r, some n, some .malformed⟩ else ⟨r, some n, none⟩
  | none => { cr with chunk := some 0 }

/-- The second half of `cr.Next()`: set up the next chunk, or end at a size of `0`. -/
def setupNext (cr : ChunkedReader) : Bool × ChunkedReader :=
  let (n, cr) := cr.beginChunk
  let cr :=
    if n > 0 then { cr with chunk := some (int64 n) }
    else if cr.err = none then { cr with err := some (.read .eof) } else cr
  (cr.err = none, cr)

/-- `cr.Next()`: whether there is a next chunk. -/
def next (cr : ChunkedReader) : Bool × ChunkedReader :=
  if cr.err ≠ none then (false, cr)
  else
    let cr := cr.checkPrevious
    if cr.err ≠ none then (false, cr) else cr.setupNext

/-- The consumer reads up to `k` bytes of `cr.Chunk()`. Before the first `Next` there is no limited
reader (Go dereferences `nil`), and nothing is read. -/
def readChunk (k : Nat) (cr : ChunkedReader) : List UInt8 × ChunkedReader :=
  match cr.chunk with
  | some n =>
    let (b, n, r) := limitedRead n k cr.r
    (b, { cr with r, chunk := some n })
  | none => ([], cr)

/-- `cr.Err()`: the error, with `io.EOF`, the end of the body, reported as none. -/
def Err (cr : ChunkedReader) : Option ChunkErr :=
  if cr.err = some (.read .eof) then none else cr.err

end ChunkedReader

/-- A call of the reader's consumer: `Next`, or a read of up to `k` bytes of `Chunk()`. -/
inductive Call where
  | next
  | read (k : Nat)
  deriving DecidableEq, Repr

/-- What a call returns. -/
inductive Reply where
  | next (ok : Bool)
  | read (data : List UInt8)
  deriving DecidableEq, Repr

open ChunkedReader in
/-- A consumer's calls, in order, on the reader. -/
def session (cr : ChunkedReader) : List Call → List Reply × ChunkedReader
  | [] => ([], cr)
  | .next :: calls =>
    let (ok, cr) := cr.next
    let (rs, cr) := session cr calls
    (.next ok :: rs, cr)
  | .read k :: calls =>
    let (d, cr) := cr.readChunk k
    let (rs, cr) := session cr calls
    (.read d :: rs, cr)

/-! ## Well-formed bodies -/

/-- The bytes `0`-`9`, `a`-`f` and `A`-`F`. -/
def hexDigits : List UInt8 :=
  [48, 49, 50, 51, 52, 53, 54, 55, 56, 57, 97, 98, 99, 100, 101, 102, 65, 66, 67, 68, 69, 70]

/-- CRLF. -/
def crlf : List UInt8 := [13, 10]

/-- A hex digit is a digit of base `16` for `ParseUint`, and neither ends a line nor is trimmed. -/
theorem hexDigits_facts : ∀ c ∈ hexDigits,
    (∃ d, digitVal c = some d ∧ d < 16) ∧ c ≠ 10 ∧ c ≠ 13 ∧ c ∉ ([32, 9, 10, 13] : List UInt8) := by
  decide +kernel

/-- A size line: hex digits in either case, with any leading zeros, that spell `n`, and that fit in
the reader's buffer with the CRLF after them. -/
structure SizeLine (line : List UInt8) (n : Nat) : Prop where
  ne_nil : line ≠ []
  hex : ∀ c ∈ line, c ∈ hexDigits
  value : digitsValue 16 line = n
  fits : line.length + 2 ≤ defaultBufSize

/-- A chunk as it is sent, behind its size line, and the number of its bytes the consumer reads
before it calls `Next` again. -/
structure Piece where
  line : List UInt8
  data : List UInt8
  taken : Nat

/-- A chunk of `1` to `2^63 - 1` bytes behind a size line of its length. -/
structure Piece.WellFormed (p : Piece) : Prop where
  size : SizeLine p.line p.data.length
  pos : 0 < p.data.length
  lt : p.data.length < 2 ^ 63

/-- The size line, CRLF, the data, CRLF. -/
def Piece.encode (p : Piece) : List UInt8 := p.line ++ crlf ++ p.data ++ crlf

/-- A body of chunks: the chunks, the size line `0`, and any bytes after it. -/
def encodeBody (ps : List Piece) (t : List UInt8) : List UInt8 :=
  (ps.map Piece.encode).flatten ++ [48] ++ crlf ++ t

/-- The consumer's calls on a body of chunks: `Next` and a read of each chunk, then `Next` until
it has answered `false` `m + 1` times. -/
def bodyCalls (ps : List Piece) (m : Nat) : List Call :=
  (ps.map fun p => [Call.next, .read p.taken]).flatten ++ List.replicate (m + 1) .next

/-- What the calls should return: each chunk, cut to what the consumer read, then `false`. -/
def bodyReplies (ps : List Piece) (m : Nat) : List Reply :=
  (ps.map fun p => [Reply.next true, .read (p.data.take p.taken)]).flatten ++
    List.replicate (m + 1) (.next false)

namespace ChunkedReader

variable {line rest : List UInt8} {n : Nat}

theorem readLine_sizeLine (h : SizeLine line n) (rest : List UInt8) :
    readLine (line ++ crlf ++ rest) = (.ok line, rest) := by
  have hcr : (10 : UInt8) ∉ line ++ [13] := by
    simp only [List.mem_append, List.mem_singleton, not_or]
    exact ⟨fun h10 => (hexDigits_facts 10 (h.hex 10 h10)).2.1 rfl, by decide⟩
  have hfit : (line ++ [13]).length < defaultBufSize := by
    have := h.fits
    simp only [List.length_append, List.length_singleton]
    omega
  have hsplit : line ++ crlf ++ rest = (line ++ [13]) ++ 10 :: rest := by simp [crlf]
  rw [readLine, hsplit, readSlice_append hcr hfit, List.append_assoc]
  -- only the CRLF is trimmed: no hex digit is in the cut set
  simp only [List.singleton_append]
  rw [trimRight_append (fun c hc => (hexDigits_facts c (h.hex c hc)).2.2.2) (by decide +kernel)]

/-- **A size line is read as its value.** -/
theorem beginChunk_sizeLine (h : SizeLine line n) (hn : n < 2 ^ 64) (chunk : Option Int) :
    (⟨line ++ crlf ++ rest, chunk, none⟩ : ChunkedReader).beginChunk = (n, ⟨rest, chunk, none⟩) := by
  have hd : ∀ c ∈ line, ∃ d, digitVal c = some d ∧ d < 16 :=
    fun c hc => (hexDigits_facts c (h.hex c hc)).1
  have hp : parseUint 16 64 line = (n, none) := by
    rw [parseUint_of_digits (by decide) (Nat.le_refl 64) h.ne_nil hd (h.value ▸ hn), h.value]
  simp only [beginChunk, readLine_sizeLine h rest, hp]

/-- The reader is between chunks with `rest` to read: before the first `Next`, or in a chunk whose
unread bytes `d` are followed by CRLF and `rest`. -/
inductive Between (rest : List UInt8) : ChunkedReader → Prop
  | start : Between rest ⟨rest, none, none⟩
  | inChunk (d : List UInt8) : Between rest ⟨d ++ crlf ++ rest, some d.length, none⟩

/-- **The check of a chunk's end passes between chunks**, whatever the consumer left unread. -/
theorem Between.checkPrevious {cr : ChunkedReader} (h : Between rest cr) :
    cr.checkPrevious = ⟨rest, some 0, none⟩ := by
  cases h with
  | start => rfl
  | inChunk d =>
    -- draining reads all of `d`, and stops at the CRLF
    have hdrain := limitedRead_append d (crlf ++ rest) (d ++ crlf ++ rest).length
    rw [List.append_assoc] at hdrain ⊢
    have hk : d.length ≤ (d ++ (crlf ++ rest)).length := by simp
    rw [List.take_of_length_le hk, List.drop_of_length_le hk, List.length_nil, List.nil_append]
      at hdrain
    simp only [ChunkedReader.checkPrevious, hdrain, Int.natCast_zero]
    rw [show crlf ++ rest = [13, 10] ++ rest from rfl, show 2 = ([13, 10] : List UInt8).length from rfl,
      readFull_append]
    rfl

theorem next_of_between {cr : ChunkedReader} (h : Between (line ++ crlf ++ rest) cr) :
    cr.next = (⟨line ++ crlf ++ rest, some 0, none⟩ : ChunkedReader).setupNext := by
  have herr : cr.err = none := by cases h <;> rfl
  simp only [next, herr, ne_eq, not_true_eq_false, if_false, h.checkPrevious]

/-- **`Next` between chunks yields the next chunk**, with its length as the count. -/
theorem next_piece {cr : ChunkedReader} {p : Piece} (hp : p.WellFormed) {more : List UInt8}
    (h : Between (p.encode ++ more) cr) :
    cr.next = (true, ⟨p.data ++ crlf ++ more, some p.data.length, none⟩) := by
  have henc : p.encode ++ more = p.line ++ crlf ++ (p.data ++ crlf ++ more) := by
    simp [Piece.encode]
  rw [henc] at h
  rw [next_of_between h, setupNext, beginChunk_sizeLine hp.size (by have := hp.lt; omega)]
  simp only [gt_iff_lt, hp.pos, if_true, int64_of_lt hp.lt]
  rfl

/-- **`Next` at the size line `0` ends the body**, leaving the bytes after it unread. -/
theorem next_last {cr : ChunkedReader} {t : List UInt8} (h : Between ([48] ++ crlf ++ t) cr) :
    cr.next = (false, ⟨t, some 0, some (.read .eof)⟩) := by
  have hz : SizeLine [48] 0 := ⟨by decide, by decide +kernel, by decide, by decide⟩
  rw [next_of_between h, setupNext, beginChunk_sizeLine hz (Nat.two_pow_pos 64)]
  rfl

/-- After an error, `Next` answers `false` and changes nothing. -/
theorem next_of_err {cr : ChunkedReader} (h : cr.err ≠ none) : cr.next = (false, cr) := by
  rw [next, if_pos h]

/-- A read of the current chunk reads its first `k` bytes, and leaves the reader between chunks. -/
theorem readChunk_inChunk (d more : List UInt8) (k : Nat) :
    (⟨d ++ crlf ++ more, some d.length, none⟩ : ChunkedReader).readChunk k =
      (d.take k, ⟨d.drop k ++ crlf ++ more, some (d.drop k).length, none⟩) := by
  simp only [readChunk, List.append_assoc, limitedRead_append]

end ChunkedReader

open ChunkedReader

/-- Calls of `Next` after an error answer `false` and change nothing. -/
theorem session_of_err {cr : ChunkedReader} (h : cr.err ≠ none) (m : Nat) :
    session cr (List.replicate m .next) = (List.replicate m (.next false), cr) := by
  induction m with
  | zero => rfl
  | succ m ih => simp only [List.replicate_succ, session, next_of_err h, ih]

/-- The run lemma: between chunks, the consumer's calls on the rest of a body get the chunks, and
then `false` with the end of the body recorded. -/
theorem session_between (t : List UInt8) (m : Nat) :
    ∀ (ps : List Piece) (cr : ChunkedReader), (∀ p ∈ ps, p.WellFormed) →
      Between ((ps.map Piece.encode).flatten ++ [48] ++ crlf ++ t) cr →
      session cr (bodyCalls ps m) = (bodyReplies ps m, ⟨t, some 0, some (.read .eof)⟩)
  | [], cr, _, h => by
    simp only [List.map_nil, List.flatten_nil, List.nil_append] at h
    have hend : (⟨t, some 0, some (.read .eof)⟩ : ChunkedReader).err ≠ none := nofun
    simp only [bodyCalls, bodyReplies, List.map_nil, List.flatten_nil, List.nil_append,
      List.replicate_succ, session, next_last h, session_of_err hend]
  | p :: ps, cr, hw, h => by
    have hp := hw p (List.mem_cons_self ..)
    -- the rest of the body after this chunk
    have hmore : ((p :: ps).map Piece.encode).flatten ++ [48] ++ crlf ++ t =
        p.encode ++ ((ps.map Piece.encode).flatten ++ [48] ++ crlf ++ t) := by simp
    rw [hmore] at h
    have hrest := session_between t m ps _ (fun q hq => hw q (List.mem_cons_of_mem _ hq))
      (Between.inChunk (p.data.drop p.taken))
    simp only [bodyCalls, bodyReplies, List.map_cons, List.flatten_cons, List.cons_append,
      List.nil_append, session, next_piece hp h, readChunk_inChunk] at hrest ⊢
    rw [hrest]

/-- **The reader decodes a well-formed body.** On chunks of `1` to `2^63 - 1` bytes behind size
lines of hex digits (either case, any leading zeros) that fit in the buffer, then the size line
`0` and any bytes `t`: whatever prefix of each chunk the consumer reads, the `k`-th `Next` answers
`true` and `Chunk()` yields the `k`-th chunk; every later `Next` answers `false`, `Err()` is nil,
and `t` is left unread. -/
theorem session_encodeBody (ps : List Piece) (t : List UInt8) (m : Nat)
    (hw : ∀ p ∈ ps, p.WellFormed) :
    session (newChunkedReader (encodeBody ps t)) (bodyCalls ps m) =
        (bodyReplies ps m, ⟨t, some 0, some (.read .eof)⟩) ∧
      (⟨t, some 0, some (.read .eof)⟩ : ChunkedReader).Err = none :=
  ⟨session_between t m ps _ hw Between.start, rfl⟩

/-- **Two inputs that are not a chunked body, which `Next` ends as one.** `7 CRLF hello, ` stops
right after a chunk's data, with no CRLF and no size line `0`: `Next` yields `hello, `, and the next
`Next` answers `false` with `Err()` nil, as draining takes the end of the input for the end of the
chunk and `io.ReadFull` then reports `io.EOF`. `8000000000000000 CRLF CRLF 0 CRLF` announces a chunk
of `2^63` bytes and sends none: the size converts to a negative count, so `Next` yields an empty
chunk, takes the CRLF for its end, and ends at the `0` with `Err()` nil. -/
theorem next_accepts_truncated_and_oversized :
    (session (newChunkedReader [55, 13, 10, 104, 101, 108, 108, 111, 44, 32]) [.next, .read 7, .next]).1 =
        [.next true, .read [104, 101, 108, 108, 111, 44, 32], .next false] ∧
      (session (newChunkedReader [55, 13, 10, 104, 101, 108, 108, 111, 44, 32])
        [.next, .read 7, .next]).2.Err = none ∧
      (session (newChunkedReader (56 :: List.replicate 15 48 ++ crlf ++ crlf ++ [48] ++ crlf))
        [.next, .read 1, .next]).1 = [.next true, .read [], .next false] ∧
      (session (newChunkedReader (56 :: List.replicate 15 48 ++ crlf ++ crlf ++ [48] ++ crlf))
        [.next, .read 1, .next]).2.Err = none := by
  decide +kernel

end WeaveNet.Proxy
