import CodeImage.Bytes
/-!
# Relocation records

How a loader recreates the relocatable parts of an image.  `encode` joins pieces that touch or overlap into spans and
cuts each span into records: words to copy, and runs of zero words to clear.  A run of zeros shorter than the given
least length stays among the words around it, unless it ends the span.  `reconstruct` replays records into spans.
Addresses are words: where one would be too large for a word, it is counted from zero on.
-/
namespace CodeImage

/-- **One step of the loader**: copy words to an address, or clear words there. -/
inductive RelocationRecord where
  | copy (address : Nat) (words : List Nat)
  | clear (address count : Nat)
  deriving DecidableEq, Repr

namespace RelocationRecord

def address : RelocationRecord → Nat
  | .copy a _ => a
  | .clear a _ => a

def wordCount : RelocationRecord → Nat
  | .copy _ words => words.length
  | .clear _ count => count

/-- **The bytes that the record writes.** -/
def bytes : RelocationRecord → Bytes
  | .copy _ words => words.flatMap (leBytes 4)
  | .clear _ count => List.replicate (4 * count) 0

end RelocationRecord

/-- A stretch of memory and its bytes. -/
structure Span where
  address : Nat
  bytes : Bytes
  deriving DecidableEq, Repr

namespace Span

def stop (s : Span) : Nat := s.address + s.bytes.length

/-- The end as a word. -/
def wordStop (s : Span) : Nat := s.stop % wordLimit

end Span

namespace Relocation

/-- **How far the cutting of words has come**: records stand for the words before `start`, and the words from there up to
`pos` wait for one. -/
structure Cursors where
  start : Nat
  pos : Nat
  deriving DecidableEq, Repr

/-- Where the run of words with property `p` that begins at `pos` ends. -/
def runEnd (p : Nat → Bool) (words : Array Nat) (pos : Nat) : Nat :=
  if h : pos < words.size then if p words[pos] then runEnd p words (pos + 1) else pos else pos
termination_by words.size - pos

/-- The records of some words and of the `zeros` zero words behind them. -/
def recordsOf (address : Nat) (data : List Nat) (zeros : Nat) : List RelocationRecord :=
  (if data.isEmpty then [] else [.copy (address % wordLimit) data])
    ++ if zeros = 0 then [] else [.clear ((address + 4 * data.length) % wordLimit) zeros]

/-- **Look at the next run of zeros.**  If it is short and more words follow, all words up to its end wait; otherwise the
words before it and the run itself get their records. -/
def turn (minRun base : Nat) (words : Array Nat) (c : Cursors) : Cursors × List RelocationRecord :=
  let pos := runEnd (· != 0) words c.pos
  let stop := runEnd (· == 0) words pos
  if stop < words.size && stop - pos < minRun then (⟨c.start, stop⟩, [])
  else (⟨stop, stop⟩, recordsOf (base + 4 * c.start) (words.extract c.start pos).toList (stop - pos))

/-- **Cut words into records**, turn after turn, until none is left.  More than `limit` turns are not made. -/
def cut (minRun base : Nat) (words : Array Nat) : Nat → Cursors → Option (List RelocationRecord)
  | limit, c =>
    if words.size ≤ c.start then some []
    else match limit with
      | 0 => none
      | limit + 1 =>
        let (c, records) := turn minRun base words c
        (cut minRun base words limit c).map (records ++ ·)

/-- **The records of one span.**  There are no more turns than words. -/
def encodeSpan (minRun : Nat) (s : Span) : List RelocationRecord :=
  let words := (toWords s.bytes).toArray
  (cut minRun s.address words words.size ⟨0, 0⟩).getD []

/-- A span with a piece laid over it that starts no later than its end. -/
def overlay (s piece : Span) : Span :=
  let kept := piece.address - s.address
  ⟨s.address, s.bytes.take kept ++ piece.bytes ++ s.bytes.drop (kept + piece.bytes.length)⟩

/-- **Join pieces that touch or overlap**; where they overlap, the later piece counts. -/
def joinPieces : List Span → List Span
  | [] => []
  | s :: rest => go s rest
where
  go (s : Span) : List Span → List Span
    | [] => [s]
    | p :: rest => if p.address ≤ s.wordStop then go (overlay s p) rest else s :: go p rest

/-- **The records of pieces sorted by address.** -/
def encode (minRun : Nat) (pieces : List Span) : List RelocationRecord :=
  (joinPieces pieces).flatMap (encodeSpan minRun)

/-- Append a record's bytes to the span that ends where it starts, or begin a span. -/
def replayOne (spans : List Span) (r : RelocationRecord) : List Span :=
  match spans with
  | s :: rest =>
    if s.wordStop == r.address then ⟨s.address, s.bytes ++ r.bytes⟩ :: rest else ⟨r.address, r.bytes⟩ :: s :: rest
  | [] => [⟨r.address, r.bytes⟩]

/-- **The spans that records write**, records that touch joined. -/
def reconstruct (records : List RelocationRecord) : List Span := (records.foldl replayOne []).reverse

end Relocation

end CodeImage
