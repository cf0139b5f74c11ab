import StagedLisp.Proofs.Ownership.Owners

/-! Captured storage. A plan looks at the captures of the name that is to be released and of its parts, and
not at those of the other names of the storage. So a storage that a procedure captures under one name is
still given back if another name is its owner. -/
namespace StagedLisp

theorem Plans.ofForm_bound {form : LetForm} {values : List Value} {a : Analysis} {options : Options} :
    ∀ p ∈ ofForm form values a options, p.name ∈ form.names :=
  ofForm_all (fun _ bound _ => List.mem_map_of_mem bound) (fun _ _ _ _ bound _ => bound) fun _ _ _ _ bound => bound

theorem Ownership.owner_root {form : LetForm} {l : Liveness} {c w : String}
    (distinct : form.names.Nodup) (unassigned : form.statements.flatMap assignments = [])
    (owner : (ofForm form l).owner? c = some w) :
    w ∈ form.names ∧ (ofForm form l).root w = (ofForm form l).root c := by
  have self := root_of_final ((ofForm_ranked form l).final c)
  rw [owner?_eq] at owner
  split at owner
  · next declared =>
    cases Option.some.inj owner
    rcases lastUsed_mem (ofForm form l) ((ofForm form l).root c)
      ((ofForm form l).aliases ((ofForm form l).root c)) with root | ⟨listed,_⟩
    · rw [root]
      exact ⟨(ofForm_declared form l _).mp declared,self⟩
    · rw [ofForm_unassigned l unassigned] at listed self ⊢
      obtain ⟨member,linked,_⟩ := links_of_listed distinct listed
      refine ⟨member,?_⟩
      by_cases same : (declareAll l form.bindings).root c =
          (declareAll l form.bindings).lastUsed ((declareAll l form.bindings).root c)
            ((declareAll l form.bindings).aliases ((declareAll l form.bindings).root c))
      · rw [← same,self]
      · rw [(declareAll_ranked l form.bindings).root_link ⟨linked,same⟩,self]
  · cases owner

/-- If nothing is assigned and a procedure captures the name `c`, then a name of the same storage is given
back exactly if it is another one than `c` and the owner, is part of no other value, has a value at run
time and is captured neither itself nor in a part. -/
theorem Plans.captured_released_iff {form : LetForm} (known : Table Shape) (values : List Value)
    (options : Options) (distinct : form.names.Nodup)
    (unassigned : form.statements.flatMap assignments = []) {c : String}
    (captured : ((Analysis.ofForm form known options).usage.usage? c).any Usage.captured = true) :
    let a := Analysis.ofForm form known options
    ∀ p ∈ ofForm form values a options,
      a.ownership.root p.name = a.ownership.root c ∧ p.release.isOwn = true ↔
        p.name ≠ c ∧ a.ownership.owner? c = some p.name ∧
        a.ownership.projectionOf? p.name = none ∧ p.init.isSome = true ∧
        (a.usage.usage? p.name).any Usage.captured = false ∧ a.partCaptured p.name = false := by
  intro a p planned
  rw [ofForm_isOwn distinct p planned]
  have ownership : a.ownership = _ := Analysis.ofForm_ownership
  rw [ownership,Ownership.ofForm_elides (ofForm_bound p planned)]
  constructor
  · rintro ⟨same,built,free,parts,whole,owns⟩
    refine ⟨?_,(Ownership.owner?_congr same).symm.trans owns,whole,built,free,parts⟩
    rintro rfl
    rw [captured] at free
    cases free
  · rintro ⟨_,owner,whole,built,free,parts⟩
    obtain ⟨_,same⟩ := Ownership.owner_root distinct unassigned owner
    exact ⟨same,built,free,parts,whole,(Ownership.owner?_congr same).trans owner⟩

/-- `(let ((x (cons 1 2)) (f (lambda () x)) (y x)) y)` -/
def keptForm : LetForm where
  kind := .plain
  bindings := [
    ⟨"x",.pair 2 (.sym "cons") (.pair 1 (.int 1) (.pair 0 (.int 2) .nil))⟩,
    ⟨"f",.pair 5 (.sym "lambda") (.pair 4 .nil (.pair 3 (.sym "x") .nil))⟩,
    ⟨"y",.sym "x"⟩]
  body := .sym "y"

def keptValues : List Value :=
  [.code (.text "mk_pair(1, 2)"),.closure 0 [] (.sym "x") [("x",0)],.code (.text "x")]

theorem keptForm_plans : (Plans.ofForm keptForm keptValues (Analysis.ofForm keptForm [] {}) {}).map
    (fun p : BindingPlan => (p.name,p.release)) =
      [("x",.captured),("f",.borrowed),("y",.atEnd .freeTree)] := by decide +kernel

theorem keptForm_released : ∃ p ∈ Plans.ofForm keptForm keptValues (Analysis.ofForm keptForm [] {}) {},
      p.name = "y" ∧ p.release = .atEnd .freeTree :=
  Plans.planned_of_listed (by simp [keptForm_plans])

theorem keptForm_root : (Analysis.ofForm keptForm [] {}).ownership.root "y" =
    (Analysis.ofForm keptForm [] {}).ownership.root "x" := by decide

/-- The procedure `f` keeps the pair `x`, which is freed as `y`. -/
theorem Plans.captured_storage_freed : keptForm.names.Nodup ∧
    keptForm.statements.flatMap assignments = [] ∧ "x" ∈ keptForm.names ∧ "y" ∈ keptForm.names ∧
    ((Analysis.ofForm keptForm [] {}).usage.usage? "x").any Usage.captured = true ∧
    (Analysis.ofForm keptForm [] {}).ownership.root "y" =
      (Analysis.ofForm keptForm [] {}).ownership.root "x" ∧
    ∃ p ∈ ofForm keptForm keptValues (Analysis.ofForm keptForm [] {}) {},
      p.name = "y" ∧ p.release = .atEnd .freeTree :=
  ⟨by decide,by decide,by decide,by decide,by decide,keptForm_root,keptForm_released⟩

theorem Plans.kept_released_iff : keptForm.names.Nodup ∧
    keptForm.statements.flatMap assignments = [] ∧
    ((Analysis.ofForm keptForm [] {}).usage.usage? "x").any Usage.captured = true ∧
    ∃ p ∈ ofForm keptForm keptValues (Analysis.ofForm keptForm [] {}) {},
      p.name = "y" ∧ p.release.isOwn = true ∧ p.init.isSome = true ∧
      (Analysis.ofForm keptForm [] {}).ownership.owner? "x" = some "y" ∧
      ((Analysis.ofForm keptForm [] {}).usage.usage? "y").any Usage.captured = false := by
  have distinct : keptForm.names.Nodup := by decide
  have unassigned : keptForm.statements.flatMap assignments = [] := by decide
  have captured : ((Analysis.ofForm keptForm [] {}).usage.usage? "x").any Usage.captured = true := by
    decide
  obtain ⟨p,listed,named,released⟩ := keptForm_released
  have own : p.release.isOwn = true := by rw [released]; rfl
  have root := keptForm_root
  rw [← named] at root
  obtain ⟨_,owner,_,built,free,_⟩ :=
    (captured_released_iff [] keptValues {} distinct unassigned captured p listed).mp ⟨root,own⟩
  rw [named] at owner free
  exact ⟨distinct,unassigned,captured,p,listed,named,own,built,owner,free⟩

end StagedLisp
