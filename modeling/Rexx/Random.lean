/-!
# `Random` — random numbers

The generator is the Mersenne twister with 32-bit words and a state of 624 words.
-/

namespace Rexx

structure Generator where
  words : Array UInt32
  used : Nat

namespace Generator

def size : Nat := 624

def seed (s : UInt32) : Generator :=
  let extend (ws : Array UInt32) (i : Nat) : Array UInt32 :=
    let w := ws.getD (i - 1) 0
    ws.push ((1812433253 : UInt32) * (w ^^^ (w >>> 30)) + UInt32.ofNat i)
  ⟨(List.range' 1 (size - 1)).foldl extend #[s], size⟩

def renewWord (ws : Array UInt32) (i : Nat) : Array UInt32 :=
  let y := (ws.getD i 0 &&& 0x80000000) ||| (ws.getD ((i + 1) % size) 0 &&& 0x7fffffff)
  let odd : UInt32 := if y &&& 1 = 1 then 0x9908b0df else 0
  ws.setIfInBounds i (ws.getD ((i + 397) % size) 0 ^^^ (y >>> 1) ^^^ odd)

def renew (g : Generator) : Generator := ⟨(List.range size).foldl renewWord g.words, 0⟩

def temper (w : UInt32) : UInt32 :=
  let w := w ^^^ (w >>> 11)
  let w := w ^^^ ((w <<< 7) &&& 0x9d2c5680)
  let w := w ^^^ ((w <<< 15) &&& 0xefc60000)
  w ^^^ (w >>> 18)

def next (g : Generator) : Nat × Generator :=
  let g := if size ≤ g.used then g.renew else g
  ((temper (g.words.getD g.used 0)).toNat, { g with used := g.used + 1 })

def wordCount : Nat := 4294967296

def tries : Nat := 4096

/-- A number from `0` to `range - 1`, where `range` is below `2 ^ 32`: the high word of a drawn word times `range`, unless
the low word is below `least`. -/
def scaled (range least : Nat) : Nat → Generator → Nat × Generator
  | 0, g => (0, g)
  | n + 1, g =>
    let (w, g) := g.next
    let p := w * range
    if p % wordCount < least then scaled range least n g else (p / wordCount, g)

/-- A number from `0` to `last`, where `last` is below `2 ^ 32`. -/
def upToWord (last : Nat) (g : Generator) : Nat × Generator :=
  if last = wordCount - 1 then g.next
  else scaled (last + 1) ((wordCount - (last + 1)) % (last + 1)) tries g

def upToLong (last : Nat) : Nat → Generator → Nat × Generator
  | 0, g => (0, g)
  | n + 1, g =>
    let (high, g) := upToWord (last / wordCount) g
    let (low, g) := g.next
    let v := high * wordCount + low
    if v ≤ last then (v, g) else upToLong last n g

def between (lo hi : Int) (g : Generator) : Int × Generator :=
  let last := (hi - lo).toNat
  let (n, g) := if last < wordCount then upToWord last g else upToLong last tries g
  (lo + n, g)

end Generator

end Rexx
