import StagedLisp.Heap.Basic
import StagedLisp.Fault

/-! Destinations: the caller says where a result goes, and the callee writes it there. -/
namespace StagedLisp

structure Destination where
  cell : Option Nat := none
  inPool : Bool := false
deriving DecidableEq, Repr

namespace Destination

def writeInt (d : Destination) (h : Heap) (value : Int64) : Nat × Destination × Heap :=
  let (id,h) := if d.inPool then h.newPoolInt value else h.newInt value
  (id,{ d with cell := some id },h)

def writePair (d : Destination) (h : Heap) (head tail : Option Nat) : Nat × Destination × Heap :=
  let (id,h) := h.newPair head tail
  (id,{ d with cell := some id },h)

def writeEach : List Int64 → List Destination → Heap → List Destination × Heap
  | value :: values, d :: rest, h =>
    let (_,d,h) := d.writeInt h value
    let (rest,h) := writeEach values rest h
    (d :: rest,h)
  | _, rest, h => (rest,h)

/-- Writes the image of each integer of a list to a destination of its own. Yields the number of
integers; nothing is written unless there are destinations for all. -/
def mapInto (h : Heap) (list : Option Nat) (f : Int64 → Int64) (dests : List Destination) :
    Result (Nat × List Destination × Heap) :=
  let values := h.ints list
  if dests.length < values.length then fail (.destinations dests.length values.length)
  else .ok (values.length,writeEach (values.map f) dests h)

def foldInto (h : Heap) (list : Option Nat) (start : Int64) (f : Int64 → Int64 → Int64)
    (d : Destination) : Nat × Destination × Heap :=
  d.writeInt h ((h.ints list).foldl f start)

end Destination

end StagedLisp
