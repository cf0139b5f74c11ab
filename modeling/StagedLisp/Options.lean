/-! Settings of the compiler. -/
namespace StagedLisp

structure Options where
  poolSize : Nat := 256
  batchSize : Nat := 32
  livenessCap : Nat := 64
  /-- Nesting beyond this depth is analysed conservatively. -/
  analysisDepth : Nat := 256
  earlyRelease : Bool := true
  reuse : Bool := true
  poolIntegers : Bool := true
  freezeCyclic : Bool := false
  withSupport : Bool := true
deriving DecidableEq, Inhabited, Repr

end StagedLisp
