/-
# Fingerprints

States are spread over the workers by a fingerprint of sixty-four bits.  It has to be the same on
every worker and in every run, so it is a plain function of the value: a digest that starts at
zero takes up one word after the other (`Digest.add`), a run of bytes as the widest words that
still fit (`Digest.bytes`), and a value as the words and runs that spell it (`Datum.digest`).

`fingerprint` and `owner` have the same names in the checker; the digest is its `FxHasher`.
-/
namespace FairCycle

/-- A running digest. -/
structure Digest where
  value : UInt64
deriving DecidableEq

namespace Digest

/-- The digest of nothing. -/
def start : Digest := ⟨0⟩

/-- The odd factor that spreads a word over all bits. -/
def factor : UInt64 := 0x517cc1b727220a95

/-- Take up one word: turn five bits to the left, mix the word in, multiply. -/
def add (d : Digest) (word : UInt64) : Digest :=
  ⟨((d.value <<< 5 ||| d.value >>> 59) ^^^ word) * factor⟩

/-- The word that bytes spell, the lowest first. -/
def littleEndian (bytes : List UInt8) : UInt64 :=
  bytes.foldr (fun byte word => word <<< 8 ||| byte.toUInt64) 0

/-- Take up fewer than eight bytes: four, two and one at a time, as they fit. -/
def addRest (d : Digest) (bytes : List UInt8) : Digest :=
  ([4, 2, 1].foldl
    (fun (d, bytes) width =>
      if width ≤ bytes.length then (add d (littleEndian (bytes.take width)), bytes.drop width)
      else (d, bytes))
    (d, bytes)).1

/-- Take up a run of bytes, eight at a time and then the rest. -/
def bytes (d : Digest) : List UInt8 → Digest
  | a :: b :: c :: e :: f :: g :: h :: i :: rest =>
    bytes (d.add (littleEndian [a, b, c, e, f, g, h, i])) rest
  | rest => d.addRest rest

/-- Take up a text: its bytes, closed by a byte that no text contains. -/
def text (d : Digest) (s : String) : Digest :=
  (d.bytes s.toUTF8.toList).add 0xff

end Digest

/-- The four bytes of a word of thirty-two bits, the lowest first. -/
def bytesOfWord (word : UInt32) : List UInt8 :=
  [word.toUInt8, (word >>> 8).toUInt8, (word >>> 16).toUInt8, (word >>> 24).toUInt8]

/-- The shapes of value that have a fingerprint. -/
inductive Datum where
  /-- A number of at most sixty-four bits. -/
  | word (value : UInt64)
  /-- Two numbers, or the low and the high half of one of a hundred and twenty-eight bits. -/
  | pair (first second : UInt64)
  /-- A text. -/
  | text (value : String)
  /-- A list of bytes. -/
  | bytes (values : List UInt8)
  /-- A list of numbers of thirty-two bits. -/
  | words (values : List UInt32)
  /-- A list of texts. -/
  | texts (values : List String)

/-- Take up a value.  A list announces its length first. -/
def Datum.digest (d : Digest) : Datum → Digest
  | .word value => d.add value
  | .pair first second => (d.add first).add second
  | .text value => d.text value
  | .bytes values => (d.add values.length.toUInt64).bytes values
  | .words values => (d.add values.length.toUInt64).bytes (values.flatMap bytesOfWord)
  | .texts values => values.foldl Digest.text (d.add values.length.toUInt64)

/-- The fingerprint of a value. -/
def fingerprint (value : Datum) : UInt64 := (value.digest .start).value

/-- The worker, out of `peers`, that owns the states with a fingerprint. -/
def owner (hash : UInt64) (peers : Nat) : Nat := hash.toNat % peers

/-- The owner, if there is a worker at all. -/
def owner? (hash : UInt64) (peers : Nat) : Option Nat :=
  if peers = 0 then none else some (owner hash peers)

theorem owner_lt {hash : UInt64} {peers : Nat} (h : 0 < peers) : owner hash peers < peers :=
  Nat.mod_lt _ h

end FairCycle
