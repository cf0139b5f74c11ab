import StagedLisp.Level.Handler
import StagedLisp.Release.Plan

/-! Levels of the tower: an environment, the rules of evaluation in it, and the level above, which
comes into being when it is first needed. -/
namespace StagedLisp

structure Level where
  env : Env
  parent : Option Nat := none
  handlers : Handlers := {}
  staging : Bool := true
  known : Table Shape := []
  /-- Releases on branches of the compiled body that is evaluated here. -/
  releases : List BranchRelease := []

namespace Level

def scope (l : Level) (env : Env) : Level := { l with env, releases := [] }

def drops (l : Level) (site branch : Nat) : List Code.Drop :=
  (l.releases.filter fun r => r.site == site && r.branch == branch).map BranchRelease.drop

end Level

end StagedLisp
