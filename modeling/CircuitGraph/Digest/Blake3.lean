/-!
# The BLAKE3 hash

The input is cut into chunks of 1024 bytes and each chunk into blocks of 64 bytes. The blocks of a
chunk are compressed one after the other; the chunks are then the leaves of a binary tree whose
inner nodes compress the chaining values of their two children. The last compression of the whole
tree carries a flag and gives the digest of 32 bytes.

The tree has in every left subtree the largest power of two of chunks that leaves some to the right.
Joining neighbours level by level, and carrying an odd last one up as it is, builds exactly this
tree.
-/

namespace CircuitGraph.Digest

/-- A chaining value. -/
abbrev Chaining := Vector UInt32 8

/-- A block of 64 bytes as little-endian words, or the state of a compression. -/
abbrev Words := Vector UInt32 16

/-- The chaining value at the start of a chunk and of an inner node. -/
def initialValue : Chaining :=
  #v[0x6A09E667, 0xBB67AE85, 0x3C6EF372, 0xA54FF53A, 0x510E527F, 0x9B05688C, 0x1F83D9AB, 0x5BE0CD19]

/-- The flag of the first block of a chunk. -/
def chunkStart : UInt32 := 1

/-- The flag of the last block of a chunk. -/
def chunkEnd : UInt32 := 2

/-- The flag of an inner node. -/
def parentFlag : UInt32 := 4

/-- The flag of the last compression of all. -/
def rootFlag : UInt32 := 8

/-- A word rotated to the right by a number of bits between 1 and 31. -/
def rotateRight (x n : UInt32) : UInt32 := (x >>> n) ||| (x <<< (32 - n))

/-- Mixes two words of the message into four words of the state. -/
def mix (v : Words) (a b c d : Fin 16) (x y : UInt32) : Words :=
  let va := v[a] + v[b] + x
  let vd := rotateRight (v[d] ^^^ va) 16
  let vc := v[c] + vd
  let vb := rotateRight (v[b] ^^^ vc) 12
  let va := va + vb + y
  let vd := rotateRight (vd ^^^ va) 8
  let vc := vc + vd
  let vb := rotateRight (vb ^^^ vc) 7
  (((v.set a va).set b vb).set c vc).set d vd

/-- One round: the columns of the state, then its diagonals. -/
def round (v m : Words) : Words :=
  let v := mix v 0 4 8 12 m[0] m[1]
  let v := mix v 1 5 9 13 m[2] m[3]
  let v := mix v 2 6 10 14 m[4] m[5]
  let v := mix v 3 7 11 15 m[6] m[7]
  let v := mix v 0 5 10 15 m[8] m[9]
  let v := mix v 1 6 11 12 m[10] m[11]
  let v := mix v 2 7 8 13 m[12] m[13]
  mix v 3 4 9 14 m[14] m[15]

/-- The message as the next round takes it. -/
def permute (m : Words) : Words :=
  #v[m[2], m[6], m[3], m[10], m[7], m[0], m[4], m[13],
     m[1], m[11], m[12], m[5], m[9], m[14], m[15], m[8]]

/-- The given number of rounds, each on the permuted message of the round before. -/
def rounds : Nat → Words → Words → Words
  | 0, v, _ => v
  | n + 1, v, m => rounds n (round v m) (permute m)

/-- A compression that has not been carried out yet. -/
structure Pending where
  /-- The chaining value that goes in. -/
  chaining : Chaining
  /-- The block. -/
  block : Words
  /-- The number of the chunk, or zero in an inner node. -/
  counter : UInt64
  /-- The number of bytes in the block. -/
  length : UInt32
  /-- The flags, without the one for the last compression. -/
  flags : UInt32

/-- Carries out a compression with additional flags. -/
def Pending.compress (p : Pending) (flags : UInt32) : Chaining :=
  let h := p.chaining
  let k := initialValue
  let start : Words :=
    #v[h[0], h[1], h[2], h[3], h[4], h[5], h[6], h[7], k[0], k[1], k[2], k[3],
       p.counter.toUInt32, (p.counter >>> 32).toUInt32, p.length, p.flags ||| flags]
  let v := rounds 7 start p.block
  #v[v[0] ^^^ v[8], v[1] ^^^ v[9], v[2] ^^^ v[10], v[3] ^^^ v[11],
     v[4] ^^^ v[12], v[5] ^^^ v[13], v[6] ^^^ v[14], v[7] ^^^ v[15]]

/-- The number that little-endian bytes write. -/
def littleEndian (bytes : List UInt8) : UInt32 :=
  bytes.foldr (fun b n => n * 256 + b.toUInt32) 0

/-- A block of at most 64 bytes, filled up with zeros, as words. -/
def blockOfBytes (bytes : List UInt8) : Words :=
  Vector.ofFn fun i => littleEndian ((bytes.drop (4 * i.val)).take 4)

/-- The compression of a block inside a chunk. -/
def blockNode (chaining : Chaining) (counter : UInt64) (flags : UInt32) (bytes : List UInt8) :
    Pending :=
  ⟨chaining, blockOfBytes bytes, counter, bytes.length.toUInt32, flags⟩

/-- The last compression of a chunk: every block before it is compressed into the chaining value. -/
def chunkNode (chaining : Chaining) (counter : UInt64) (flags : UInt32) (bytes : List UInt8) :
    Pending :=
  if _h : 64 < bytes.length then
    let next := (blockNode chaining counter flags (bytes.take 64)).compress 0
    chunkNode next counter 0 (bytes.drop 64)
  else
    blockNode chaining counter (flags ||| chunkEnd) bytes
termination_by bytes.length
decreasing_by simp only [List.length_drop]; omega

/-- The chunks of an input, numbered from the given counter; an empty input has one chunk. -/
def chunkNodes (counter : UInt64) (bytes : List UInt8) : List Pending :=
  if _h : 1024 < bytes.length then
    chunkNode initialValue counter chunkStart (bytes.take 1024)
      :: chunkNodes (counter + 1) (bytes.drop 1024)
  else
    [chunkNode initialValue counter chunkStart bytes]
termination_by bytes.length
decreasing_by simp only [List.length_drop]; omega

/-- The inner node above two nodes. -/
def join (left right : Pending) : Pending :=
  ⟨initialValue, (left.compress 0 ++ right.compress 0 : Vector UInt32 16), 0, 64, parentFlag⟩

/-- Joins neighbours; an odd last one is carried over. -/
def joinPairs : List Pending → List Pending
  | a :: b :: rest => join a b :: joinPairs rest
  | nodes => nodes

/-- Joining does not make a level longer. -/
theorem length_joinPairs_le (nodes : List Pending) : (joinPairs nodes).length ≤ nodes.length := by
  fun_induction joinPairs nodes with
  | case1 a b rest ih =>
    simp only [List.length_cons]
    omega
  | case2 => exact Nat.le_refl _

/-- The node above all leaves. -/
def joinAll : List Pending → Option Pending
  | [] => none
  | [node] => some node
  | a :: b :: rest => joinAll (join a b :: joinPairs rest)
termination_by nodes => nodes.length
decreasing_by
  have := length_joinPairs_le rest
  simp only [List.length_cons]
  omega

/-- The bytes of a word, the lowest first. -/
def bytesOfWord (w : UInt32) : List UInt8 :=
  [w.toUInt8, (w >>> 8).toUInt8, (w >>> 16).toUInt8, (w >>> 24).toUInt8]

/-- The digest of 32 bytes. -/
def blake3 (bytes : List UInt8) : List UInt8 :=
  match joinAll (chunkNodes 0 bytes) with
  | some top => (top.compress rootFlag).toList.flatMap bytesOfWord
  | none => []

/-- Bytes as pairs of hexadecimal digits in lower case. -/
def hex (bytes : List UInt8) : String :=
  String.ofList (bytes.flatMap fun b =>
    [Nat.digitChar (b.toNat / 16), Nat.digitChar (b.toNat % 16)])

end CircuitGraph.Digest
