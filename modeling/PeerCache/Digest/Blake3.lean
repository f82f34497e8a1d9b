import PeerCache.Text.Hex

/-!
# BLAKE3

The input is cut into chunks of 1024 bytes and these into blocks of 64. The blocks of a
chunk are compressed one after another, and the chunks are the leaves of a binary tree in
which neighbours are joined level by level and an odd last node moves up as it is. Every
node is kept uncompressed until it is known whether it is the root, because only the root
is marked as such.
-/

namespace PeerCache.Blake3

abbrev Words (n : Nat) := Vector UInt32 n

def initial : Words 8 :=
  #v[0x6A09E667, 0xBB67AE85, 0x3C6EF372, 0xA54FF53A, 0x510E527F, 0x9B05688C, 0x1F83D9AB, 0x5BE0CD19]

def chunkStart : UInt32 := 1
def chunkEnd : UInt32 := 2
def parentNode : UInt32 := 4
def rootNode : UInt32 := 8

/-- The last compression of a node, not carried out yet. -/
structure Node where
  chaining : Words 8
  block : Words 16
  counter : UInt64
  length : UInt32
  flags : UInt32

def rotateRight (w : UInt32) (n : UInt32) : UInt32 :=
  (w >>> n) ||| (w <<< (32 - n))

/-- Stir two words of the message into four words of the state. -/
def mix (s : Words 16) (a b c d : Fin 16) (x y : UInt32) : Words 16 :=
  let va := s[a] + s[b] + x
  let vd := rotateRight (s[d] ^^^ va) 16
  let vc := s[c] + vd
  let vb := rotateRight (s[b] ^^^ vc) 12
  let va := va + vb + y
  let vd := rotateRight (vd ^^^ va) 8
  let vc := vc + vd
  let vb := rotateRight (vb ^^^ vc) 7
  (((s.set a va).set b vb).set c vc).set d vd

/-- First the columns of the state, then its diagonals. -/
def round (s m : Words 16) : Words 16 :=
  let s := mix s 0 4 8 12 m[0] m[1]
  let s := mix s 1 5 9 13 m[2] m[3]
  let s := mix s 2 6 10 14 m[4] m[5]
  let s := mix s 3 7 11 15 m[6] m[7]
  let s := mix s 0 5 10 15 m[8] m[9]
  let s := mix s 1 6 11 12 m[10] m[11]
  let s := mix s 2 7 8 13 m[12] m[13]
  mix s 3 4 9 14 m[14] m[15]

/-- The order in which the next round takes the words of the message. -/
def permute (m : Words 16) : Words 16 :=
  #v[m[2], m[6], m[3], m[10], m[7], m[0], m[4], m[13],
    m[1], m[11], m[12], m[5], m[9], m[14], m[15], m[8]]

def rounds : Nat → Words 16 → Words 16 → Words 16
  | 0, s, _ => s
  | n + 1, s, m => rounds n (round s m) (permute m)

def compress (node : Node) (extra : UInt32) : Words 8 :=
  let h := node.chaining
  let s : Words 16 := #v[h[0], h[1], h[2], h[3], h[4], h[5], h[6], h[7],
    initial[0], initial[1], initial[2], initial[3],
    node.counter.toUInt32, (node.counter >>> 32).toUInt32, node.length, node.flags ||| extra]
  let s := rounds 7 s node.block
  Vector.ofFn fun i : Fin 8 => s[i.val] ^^^ s[i.val + 8]

/-- Four bytes as a word, the low byte first. -/
def wordAt (block : Array UInt8) (i : Nat) : UInt32 :=
  (block.getD (4 * i) 0).toUInt32 ||| ((block.getD (4 * i + 1) 0).toUInt32 <<< 8) |||
    ((block.getD (4 * i + 2) 0).toUInt32 <<< 16) ||| ((block.getD (4 * i + 3) 0).toUInt32 <<< 24)

def blockNode (chaining : Words 8) (counter : UInt64) (flags : UInt32) (block : Bytes) : Node :=
  let bytes := block.toArray
  { chaining, counter, flags, block := Vector.ofFn fun i => wordAt bytes i.val,
    length := UInt32.ofNat bytes.size }

def partsUpTo (size : Nat) : Nat → Bytes → List Bytes
  | 0, bytes => [bytes]
  | limit + 1, bytes =>
    match bytes.drop size with
    | [] => [bytes]
    | rest => bytes.take size :: partsUpTo size limit rest

/-- Cut bytes into parts of `size`; the last part may be shorter, and no bytes are one
empty part. -/
def parts (size : Nat) (bytes : Bytes) : List Bytes :=
  partsUpTo size bytes.length bytes

/-- Compress the blocks of a chunk up to the last one. -/
def chunkNode (counter : UInt64) (chaining : Words 8) (flags : UInt32) : List Bytes → Node
  | [] => blockNode chaining counter (flags ||| chunkEnd) []
  | [block] => blockNode chaining counter (flags ||| chunkEnd) block
  | block :: rest =>
    chunkNode counter (compress (blockNode chaining counter flags block) 0) 0 rest

def joinNodes (left right : Node) : Node :=
  let l := compress left 0
  let r := compress right 0
  { chaining := initial, counter := 0, length := 64, flags := parentNode,
    block := l ++ r }

/-- Join neighbours; an odd last node stays as it is. -/
def level : List Node → List Node
  | left :: right :: rest => joinNodes left right :: level rest
  | nodes => nodes

def root : Nat → List Node → Option Node
  | _, [] => none
  | _, [node] => some node
  | 0, node :: _ => some node
  | fuel + 1, nodes => root fuel (level nodes)

def leaves (bytes : Bytes) : List Node :=
  (parts 1024 bytes).zipIdx.map fun (chunk, i) =>
    chunkNode (UInt64.ofNat i) initial chunkStart (parts 64 chunk)

def wordBytes (w : UInt32) : Bytes :=
  [w.toUInt8, (w >>> 8).toUInt8, (w >>> 16).toUInt8, (w >>> 24).toUInt8]

/-- The 32 bytes of the hash. -/
def hash (bytes : Bytes) : Bytes :=
  let nodes := leaves bytes
  match root nodes.length nodes with
  | some node => (compress node rootNode).toList.flatMap wordBytes
  | none => []

end PeerCache.Blake3
