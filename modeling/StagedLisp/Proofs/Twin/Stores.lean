import StagedLisp.Proofs.Eval.Parallel
import StagedLisp.Proofs.Form.Lookup
import StagedLisp.Proofs.Shape.Locality
import StagedLisp.Proofs.Value.Like

/-! Two runs that number their slots and levels differently. A numbering says which slots and levels of
the two stores correspond, and grows as new ones come into being. In one setting both runs number alike;
in another, the level above some root is there from the start in the second run, while the first run
makes it when it is needed. In a loose setting the environments of the two runs agree only on the names
that are looked up. -/
namespace StagedLisp

open List Primitive Store Level Value

variable {k a b : Nat} {l l' : Level} {v w : Value} {vs ws : List Value}

/-- The environment with one slot more for each name, from the given one on. -/
def Env.stacked (env : Env) : List String → Nat → Env
  | [], _ => env
  | x :: xs, slot => stacked ((x,slot) :: env) xs (slot + 1)

theorem Env.extendAll_eq (env : Env) (slots : Slots) (entries : List (String × Value)) :
    env.extendAll slots entries =
      (env.stacked (entries.map Prod.fst) slots.size,slots ++ (entries.map Prod.snd).toArray) := by
  unfold extendAll
  induction entries generalizing env slots with
  | nil => simp [stacked]
  | cons entry entries ih =>
    obtain ⟨x,v⟩ := entry
    rw [foldl_cons]
    refine (ih _ _).trans ?_
    simp [stacked]

/-- A new root with the primitives from the given slot on. -/
@[irreducible] def Level.root (slot : Nat) : Level :=
  { env := Env.stacked [] (all.map name) slot }

theorem Level.root_parent (slot : Nat) : (root slot).parent = none := by
  rw [root]

theorem Store.addRoot_eq (s : Store) : s.addRoot = (s.levels.size,{ s with
      slots := s.slots ++ (all.map prim).toArray
      levels := s.levels.push (root s.slots.size) }) := by
  unfold addRoot Env.primitives root
  rw [Env.extendAll_eq,map_map,map_map]
  rfl

theorem Store.parent_update (s : Store) (i : Nat) {f : Level → Level}
    (stays : ∀ l, (f l).parent = l.parent) (k : Nat) :
    (levelAt { s with levels := s.levels.modify i f } k).parent = (s.levelAt k).parent := by
  rw [levelAt_update]
  split
  · next here => rw [stays,here.1]
  · rfl

theorem Store.levelAt_addRoot (s : Store) (k : Nat) : s.addRoot.2.levelAt k =
      if k = s.levels.size then root s.slots.size else s.levelAt k := by
  have levels : s.addRoot.2.levels = s.levels.push (root s.slots.size) := by rw [s.addRoot_eq]
  rw [← s.levelAt_push]
  unfold levelAt
  rw [levels]

section Raised

variable (s : Store) (i : Nat)

theorem Store.raised_eq : s.raised i = { s with
      slots := s.slots ++ (all.map prim).toArray
      levels := (s.levels.push (root s.slots.size)).modify i
        fun l => { l with parent := some s.levels.size } } := by
  rw [raised,s.addRoot_eq]

theorem Store.size_raised : (s.raised i).levels.size = s.levels.size + 1 := by
  rw [raised_eq,Array.size_modify,Array.size_push]

theorem Store.levelAt_raised (k : Nat) : (s.raised i).levelAt k = if k = i ∧ i < s.levels.size + 1 then
      { s.addRoot.2.levelAt i with parent := some s.levels.size } else s.addRoot.2.levelAt k := by
  have size : s.addRoot.2.levels.size = s.levels.size + 1 := by
    rw [s.addRoot_eq,Array.size_push]
  rw [← size]
  exact s.addRoot.2.levelAt_update i k _

theorem Store.parent_raised {p : Nat} (above : (s.levelAt k).parent = some p)
    (other : k ≠ i) : ((s.raised i).levelAt k).parent = some p := by
  rw [s.levelAt_raised i k,if_neg fun both => other both.1,s.levelAt_addRoot k,if_neg]
  · exact above
  · rintro rfl
    rw [levelAt_beyond le_rfl] at above
    cases above

end Raised

theorem Store.levelAt_raised_new (s : Store) {i : Nat} (present : i < s.levels.size) :
    (s.raised i).levelAt s.levels.size = root s.slots.size := by
  rw [s.levelAt_raised,if_neg fun both => present.ne' both.1,s.levelAt_addRoot,if_pos rfl]

theorem Store.levelAt_raised_old (s : Store) {i : Nat} (present : i < s.levels.size) (old : k ≠ s.levels.size) :
    (s.raised i).levelAt k = if k = i then { s.levelAt i with parent := some s.levels.size } else s.levelAt k := by
  have inside : i < s.levels.size + 1 := Nat.lt_succ_of_lt present
  rw [s.levelAt_raised i k,s.levelAt_addRoot k,if_neg old,s.levelAt_addRoot i,if_neg present.ne]
  simp only [inside,and_true]

theorem getElem?_append_prims (slots : Slots) {op : Primitive} (found : Primitive.all[k]? = some op) :
    (slots ++ (all.map prim).toArray)[slots.size + k]? = some (.prim op) := by
  rw [Array.getElem?_append,if_neg (by omega),Nat.add_sub_cancel_left,getElem?_toArray,getElem?_map,found]
  rfl

theorem forall₂_getElem? {α : Type} {R : α → α → Prop} {xs ys : List α} (each : Forall₂ R xs ys)
    (k : Nat) : Option.Rel R xs[k]? ys[k]? := by
  induction each generalizing k with
  | nil => exact .none
  | cons first _ ih =>
    cases k with
    | zero => exact .some first
    | succ k => exact ih k

namespace Twin

/-- The names whose known shapes matter; if the second run has the level above a root from the start,
that root and that level; and whether environments may differ in names that nobody looks up. -/
structure Setting where
  names : String → Prop
  early : Option (Nat × Nat)
  loose : Bool

/-- The slots and levels of two runs that correspond. -/
structure Numbering where
  slots : Nat → Nat → Prop
  levels : Nat → Nat → Prop
  /-- The names that the environments of a level have to agree on, in a loose setting. -/
  seen : Nat → String → Prop

namespace Numbering

/-- What corresponds goes on to correspond. -/
structure Within (n n' : Numbering) : Prop where
  slots : ∀ ⦃a b⦄, n.slots a b → n'.slots a b
  levels : ∀ ⦃i j⦄, n.levels i j → n'.levels i j
  seen : ∀ ⦃i x⦄, n.seen i x → n'.seen i x

theorem Within.refl (n : Numbering) : n.Within n := ⟨fun _ _ => id,fun _ _ => id,fun _ _ => id⟩

theorem Within.trans {n n' n'' : Numbering} (first : n.Within n') (second : n'.Within n'') : n.Within n'' :=
  ⟨fun _ _ here => second.slots (first.slots here),fun _ _ here => second.levels (first.levels here),
    fun _ _ named => second.seen (first.seen named)⟩

/-- As many more slots from the given ones on. -/
def withSlots (n : Numbering) (a b count : Nat) : Numbering :=
  { n with slots := fun x y => n.slots x y ∨ ∃ k < count, x = a + k ∧ y = b + k }

def withNames (n : Numbering) (i : Nat) (names : String → Prop) : Numbering :=
  { n with seen := fun k x => n.seen k x ∨ k = i ∧ names x }

def withLevel (n : Numbering) (i j : Nat) (names : String → Prop) : Numbering :=
  { n.withNames i names with levels := fun x y => n.levels x y ∨ x = i ∧ y = j }

/-- New roots, with the primitives in slots from `a` and `b` on. -/
abbrev withRoot (n : Numbering) (a b i j : Nat) : Numbering :=
  (n.withSlots a b all.length).withLevel i j fun _ => True

/-- Both runs have made a root above a level. -/
abbrev raised (n : Numbering) (s t : Store) (i : Nat) : Numbering :=
  (n.withRoot s.slots.size t.slots.size s.levels.size t.levels.size).withNames i
    ((n.withRoot s.slots.size t.slots.size s.levels.size t.levels.size).seen i)

variable {n : Numbering} {names : String → Prop}

theorem within_withSlots (a b count : Nat) : n.Within (n.withSlots a b count) :=
  ⟨fun _ _ => .inl,fun _ _ => id,fun _ _ => id⟩

theorem within_withNames (i : Nat) : n.Within (n.withNames i names) :=
  ⟨fun _ _ => id,fun _ _ => id,fun _ _ => .inl⟩

theorem within_withLevel (i j : Nat) : n.Within (n.withLevel i j names) :=
  ⟨fun _ _ => id,fun _ _ => .inl,fun _ _ => .inl⟩

theorem within_withRoot (a b i j : Nat) : n.Within (n.withRoot a b i j) :=
  (within_withSlots _ _ _).trans (within_withLevel _ _)

theorem oneToOne_withSlots (one : OneToOne n.slots) {count : Nat}
    (fit : ∀ ⦃x y⦄, n.slots x y → ∀ k < count, x = a + k ↔ y = b + k) :
    OneToOne (n.withSlots a b count).slots := by
  rintro x y x' y' (here | ⟨k,short,rfl,rfl⟩) (there | ⟨k',short',rfl,rfl⟩)
  · exact one here there
  · exact fit here k' short'
  · rw [eq_comm,fit there k short,eq_comm]
  · omega

theorem oneToOne_withLevel (one : OneToOne n.levels) {i j : Nat}
    (fit : ∀ ⦃x y⦄, n.levels x y → (x = i ↔ y = j)) : OneToOne (n.withLevel i j names).levels := by
  rintro x y x' y' (here | ⟨rfl,rfl⟩) (there | ⟨rfl,rfl⟩)
  · exact one here there
  · exact fit here
  · rw [eq_comm,fit there,eq_comm]
  · exact iff_of_true rfl rfl

end Numbering

/-- Names that are bound on both sides, in slots that correspond, or on none. Unless the setting is loose,
all names are. -/
structure EnvLike (σ : Setting) (n : Numbering) (names : String → Prop) (env env' : Env) : Prop where
  slot? : ∀ x, names x → Option.Rel n.slots (env.slot? x) (env'.slot? x)
  entries : σ.loose = false → Forall₂ (fun p q => p.1 = q.1 ∧ n.slots p.2 q.2) env env'

/-- Numbers of levels that values may have in the same place. -/
def Setting.Same (σ : Setting) (n : Numbering) (i j : Nat) : Prop :=
  if σ.loose = true then i = j else n.levels i j

/-- Equal values up to the numbering. Procedures have bodies with symbols among the names. -/
abbrev Values (σ : Setting) (n : Numbering) : Value → Value → Prop :=
  Like (fun body env env' => body.Spelled σ.names ∧ EnvLike σ n (LooksUp body) env env') (σ.Same n)

abbrev Entries (σ : Setting) (n : Numbering) : List (String × Value) → List (String × Value) → Prop :=
  Forall₂ fun p q => p.1 = q.1 ∧ Values σ n p.2 q.2

inductive HandlerLike (σ : Setting) (n : Numbering) : Handler → Handler → Prop where
  | native : HandlerLike σ n .native .native
  | reflected {v w : Value} : Values σ n v w → HandlerLike σ n (.reflected v) (.reflected w)

/-- What is above two levels: nothing, or levels that correspond, which are neither the root nor scopes of
it; or nothing yet where the second run has the level above the root. -/
inductive Above (σ : Setting) (n : Numbering) (t : Store) : Option Nat → Option Nat → Prop where
  | none : Above σ n t none none
  | some {p q : Nat} : n.levels p q → (σ.loose = true → p = q ∧ ∀ x, n.seen p x) →
      (∀ r m, σ.early = some (r,m) → p ≠ r ∧ (t.levelAt q).parent ≠ some m) →
      Above σ n t (some p) (some q)
  | early {r m : Nat} : σ.early = some (r,m) → Above σ n t .none (.some m)

/-- Levels that differ in the numbering and in their environments. -/
structure Kindred (σ : Setting) (n : Numbering) (t : Store) (l l' : Level) : Prop where
  above : Above σ n t l.parent l'.parent
  handlers : ∀ rule, HandlerLike σ n (l.handlers.get rule) (l'.handlers.get rule)
  staging : l.staging = l'.staging
  known : l.known.Agree σ.names l'.known

/-- Levels that differ in the numbering only, as far as the names go. -/
structure LevelLike (σ : Setting) (n : Numbering) (t : Store) (names : String → Prop) (l l' : Level) : Prop
    extends Kindred σ n t l l' where
  env : EnvLike σ n names l.env l'.env
  releases : l.releases = l'.releases

structure Exact (σ : Setting) (n : Numbering) (s t : Store) : Prop where
  slots : ∀ ⦃a b⦄, n.slots a b → a = b
  levels : σ.loose = false → ∀ ⦃i j⦄, n.levels i j → i = j
  slotCount : s.slots.size = t.slots.size
  levelCount : s.levels.size = t.levels.size

/-- In a loose setting, both runs number new slots and levels alike. -/
structure Loose (σ : Setting) (n : Numbering) (s t : Store) : Prop where
  exact : σ.early = none
  levels : ∀ ⦃i j⦄, n.levels i j → i < s.levels.size ∧ j < t.levels.size
  seen : ∀ ⦃i x⦄, n.seen i x → i < s.levels.size

/-- The level is a new root, whose slots start at `base`, and nothing corresponds to it. -/
structure Pristine (n : Numbering) (t : Store) (m base : Nat) : Prop where
  level : t.levelAt m = root base
  slots : ∀ k op, Primitive.all[k]? = some op → t.slots[base + k]? = some (.prim op)
  apart : ∀ a b, n.slots a b → b < base ∨ base + all.length ≤ b
  alone : ∀ i, ¬ n.levels i m

/-- The second run has the level `m` above the root `r`. -/
structure Early (n : Numbering) (s t : Store) (r m : Nat) : Prop where
  slots : ∀ ⦃a b⦄, n.slots a b → a < s.slots.size ∧ b < t.slots.size
  levels : ∀ ⦃i j⦄, n.levels i j → r ≤ i ∧ i < s.levels.size ∧ j < t.levels.size
  root : r < s.levels.size
  above : m < t.levels.size
  pristine : (s.levelAt r).parent = none → ∃ base, Pristine n t m base

/-- Stores that are equal up to the numbering. -/
structure Stores (σ : Setting) (n : Numbering) (s t : Store) : Prop where
  next : s.next = t.next
  options : s.options = t.options
  registry : s.registry = t.registry
  arena : s.arena = t.arena
  oneSlot : OneToOne n.slots
  oneLevel : OneToOne n.levels
  slot : ∀ ⦃a b⦄, n.slots a b → Option.Rel (Values σ n) s.slots[a]? t.slots[b]?
  level : ∀ ⦃i j⦄, n.levels i j → LevelLike σ n t (n.seen i) (s.levelAt i) (t.levelAt j)
  exact : σ.early = none → Exact σ n s t
  loose : σ.loose = true → Loose σ n s t
  early : ∀ r m, σ.early = some (r,m) → Early n s t r m

section Environments

variable {σ : Setting} {n n' : Numbering} {names names' : String → Prop} {env env' : Env}

theorem EnvLike.of_entries (entries : Forall₂ (fun p q => p.1 = q.1 ∧ n.slots p.2 q.2) env env') :
    EnvLike σ n names env env' := by
  refine ⟨fun x _ => ?_,fun _ => entries⟩
  induction entries with
  | nil => exact .none
  | @cons p q _ _ first _ ih =>
    obtain ⟨name,slot⟩ := p
    obtain ⟨name',slot'⟩ := q
    obtain ⟨rfl,here⟩ := first
    simp only [Env.slot?,lookup_cons]
    cases x == name with
    | true => exact .some here
    | false => exact ih

variable (like : EnvLike σ n names env env')

include like

theorem EnvLike.mono (within : n.Within n') (fewer : σ.loose = true → ∀ x, names' x → names x) :
    EnvLike σ n' names' env env' := by
  have entries (strict : σ.loose = false) : Forall₂ (fun p q => p.1 = q.1 ∧ n'.slots p.2 q.2) env env' :=
    (like.entries strict).imp fun _ _ here => ⟨here.1,within.slots here.2⟩
  cases loose : σ.loose with
  | false => exact .of_entries (entries loose)
  | true =>
    refine ⟨fun x named => ?_,entries⟩
    have found := like.slot? x (fewer loose x named)
    generalize env.slot? x = slot at found
    generalize env'.slot? x = slot' at found
    cases found with
    | none => exact .none
    | some here => exact .some (within.slots here)

theorem EnvLike.cons (here : n.slots a b) (x : String) :
    EnvLike σ n (fun y => y = x ∨ names y) ((x,a) :: env) ((x,b) :: env') := by
  refine ⟨fun y named => ?_,fun strict => .cons ⟨rfl,here⟩ (like.entries strict)⟩
  simp only [Env.slot?,lookup_cons]
  by_cases same : y = x
  · subst same
    rw [beq_self_eq_true]
    exact .some here
  · rw [beq_eq_false_iff_ne.mpr same]
    exact like.slot? y (named.resolve_left same)

theorem EnvLike.stacked (added : List String) (a b : Nat) :
    EnvLike σ (n.withSlots a b added.length) (fun x => x ∈ added ∨ names x) (env.stacked added a)
      (env'.stacked added b) := by
  have grown (done : Nat) (rest : List String) {names : String → Prop} {env env' : Env}
      (total : done + rest.length = added.length)
      (like : EnvLike σ (n.withSlots a b added.length) names env env') :
      EnvLike σ (n.withSlots a b added.length) (fun x => x ∈ rest ∨ names x)
        (env.stacked rest (a + done)) (env'.stacked rest (b + done)) := by
    induction rest generalizing done names env env' with
    | nil => exact like.mono (.refl _) fun _ x named => named.resolve_left not_mem_nil
    | cons x rest ih =>
      rw [length_cons] at total
      refine (ih (done + 1) (by omega) (like.cons (.inr ⟨done,by omega,rfl,rfl⟩) x)).mono (.refl _)
        fun _ y named => ?_
      rw [mem_cons,or_assoc] at named
      exact or_left_comm.mp named
  exact grown 0 added (Nat.zero_add _) (like.mono (Numbering.within_withSlots _ _ _) fun _ _ => id)

end Environments

section Mono

variable {σ : Setting} {n n' : Numbering} {t t' : Store} {names names' : String → Prop}

theorem Setting.Same.mono {i j : Nat} (same : σ.Same n i j) (within : n.Within n') : σ.Same n' i j := by
  unfold Setting.Same at same ⊢
  split
  · next loose => rwa [if_pos loose] at same
  · next strict =>
    rw [if_neg strict] at same
    exact within.levels same

theorem Values.mono (like : Values σ n v w) (within : n.Within n') : Values σ n' v w :=
  Like.mono like (fun _ _ _ here => ⟨here.1,here.2.mono within fun _ _ => id⟩) fun _ _ same => same.mono within

theorem HandlerLike.mono {h h' : Handler} (like : HandlerLike σ n h h') (within : n.Within n') :
    HandlerLike σ n' h h' := by
  cases like with
  | native => exact .native
  | reflected here => exact .reflected (here.mono within)

/-- In the second store no level that corresponds to one comes to have `m` above it. -/
def Unraised (σ : Setting) (n : Numbering) (t t' : Store) : Prop :=
  ∀ r m, σ.early = some (r,m) → ∀ p q, n.levels p q → (t'.levelAt q).parent = some m → (t.levelAt q).parent = some m

theorem Above.mono {p q : Option Nat} (above : Above σ n t p q) (within : n.Within n')
    (unraised : Unraised σ n t t') : Above σ n' t' p q := by
  cases above with
  | none => exact .none
  | some here full upper =>
    refine .some (within.levels here) (fun loose => ⟨(full loose).1,fun x => within.seen ((full loose).2 x)⟩)
      fun r m early => ⟨(upper r m early).1,fun parent => ?_⟩
    exact (upper r m early).2 (unraised r m early _ _ here parent)
  | early early => exact .early early

theorem Kindred.mono (kindred : Kindred σ n t l l') (within : n.Within n')
    (unraised : Unraised σ n t t') : Kindred σ n' t' l l' :=
  ⟨kindred.above.mono within unraised,fun rule => (kindred.handlers rule).mono within,
    kindred.staging,kindred.known⟩

theorem LevelLike.mono (like : LevelLike σ n t names l l') (within : n.Within n')
    (unraised : Unraised σ n t t') (fewer : σ.loose = true → ∀ x, names' x → names x) :
    LevelLike σ n' t' names' l l' :=
  ⟨like.toKindred.mono within unraised,like.env.mono within fewer,like.releases⟩

theorem Values.option {o o' : Option Value} (like : Option.Rel (Values σ n) o o')
    (within : n.Within n') : Option.Rel (Values σ n') o o' := by
  cases like with
  | none => exact .none
  | some here => exact .some (here.mono within)

end Mono

theorem Setting.cases (σ : Setting) : σ.early = none ∨ ∃ r m, σ.early = some (r,m) := by
  cases σ.early with
  | none => exact .inl rfl
  | some both => exact .inr ⟨both.1,both.2,rfl⟩

namespace Pristine

variable {n : Numbering} {t : Store} {m base : Nat}

theorem present (pristine : Pristine n t m base) (short : k < Primitive.all.length) : base + k < t.slots.size :=
  (Array.getElem?_eq_some_iff.mp (pristine.slots k _ (getElem?_eq_getElem short))).1

theorem count (pristine : Pristine n t m base) : base + Primitive.all.length ≤ t.slots.size := by
  have last : all.length = 17 + 1 := rfl
  have := pristine.present (k := 17) (by omega)
  omega

end Pristine

namespace Early

variable {n : Numbering} {s t : Store} {r m : Nat} {names : String → Prop}

theorem addSlots (known : Early n s t r m) (same : vs.length = ws.length) :
    Early (n.withSlots s.slots.size t.slots.size vs.length)
      { s with slots := s.slots ++ vs.toArray } { t with slots := t.slots ++ ws.toArray } r m := by
  refine ⟨?_,known.levels,known.root,known.above,fun unrisen => ?_⟩
  · rintro a b (here | ⟨k,short,rfl,rfl⟩)
    · have := known.slots here
      simp only [Array.size_append]
      omega
    · simp only [Array.size_append,size_toArray]
      omega
  · obtain ⟨base,pristine⟩ := known.pristine unrisen
    refine ⟨base,pristine.level,fun k op found => ?_,?_,pristine.alone⟩
    · have short := lt_of_getElem? found
      rw [Array.getElem?_append,if_pos (pristine.present short)]
      exact pristine.slots k op found
    · rintro a b (here | ⟨k,_,rfl,rfl⟩)
      · exact pristine.apart a b here
      · exact .inr (pristine.count.trans (Nat.le_add_right _ _))

theorem addLevel (known : Early n s t r m) (l l' : Level) :
    Early (n.withLevel s.levels.size t.levels.size names) { s with levels := s.levels.push l }
      { t with levels := t.levels.push l' } r m := by
  have root := known.root
  have above := known.above
  refine ⟨known.slots,?_,by simp; omega,by simp; omega,fun unrisen => ?_⟩
  · rintro i j (here | ⟨rfl,rfl⟩)
    · have := known.levels here
      simp only [Array.size_push]
      omega
    · simp only [Array.size_push]
      omega
  · rw [levelAt_push,if_neg root.ne] at unrisen
    obtain ⟨base,pristine⟩ := known.pristine unrisen
    refine ⟨base,?_,pristine.slots,pristine.apart,?_⟩
    · rw [levelAt_push,if_neg above.ne]
      exact pristine.level
    · rintro i (here | ⟨_,rfl⟩)
      · exact pristine.alone i here
      · exact absurd above (lt_irrefl _)

theorem rise (known : Early n s t r m) {base : Nat} (pristine : Pristine n t m base) :
    Early (n.withRoot s.slots.size base s.levels.size m) (s.raised r) t r m := by
  have root := known.root
  have above := known.above
  have count := pristine.count
  have size := s.size_raised r
  have slots : (s.raised r).slots.size = s.slots.size + all.length := by
    simp [s.raised_eq]
  refine ⟨?_,?_,by omega,above,fun unrisen => ?_⟩
  · rintro a b (here | ⟨k,short,rfl,rfl⟩)
    · have := known.slots here
      omega
    · omega
  · rintro i j (here | ⟨rfl,rfl⟩)
    · have := known.levels here
      omega
    · omega
  · rw [s.levelAt_raised_old root root.ne,if_pos rfl] at unrisen
    cases unrisen

end Early

namespace Stores

variable {σ : Setting} {n : Numbering} {s t : Store} {names : String → Prop} {i j : Nat} {f g : Level → Level}

theorem values_prims (σ : Setting) (n : Numbering) : Forall₂ (Values σ n) (all.map prim) (all.map prim) := by
  rw [forall₂_map_left_iff,forall₂_map_right_iff]
  exact forall₂_same.mpr fun op _ => .prim op

theorem rootLike (σ : Setting) (n : Numbering) (t : Store) (a b : Nat) :
    LevelLike σ (n.withSlots a b all.length) t (fun _ => True) (root a) (root b) := by
  have none : EnvLike σ n (fun _ => True) [] [] := .of_entries .nil
  have grown := none.stacked (all.map name) a b
  rw [length_map] at grown
  unfold root
  refine ⟨⟨.none,fun rule => ?_,rfl,fun _ _ => rfl⟩,grown.mono (.refl _) fun _ _ => .inr,rfl⟩
  cases rule <;> exact .native

variable (stores : Stores σ n s t)

include stores

/-- Levels that correspond are there on both sides, or have the same number. -/
theorem placed (here : n.levels i j) :
    i < s.levels.size ∧ j < t.levels.size ∨ i = j ∧ s.levels.size = t.levels.size := by
  rcases σ.cases with exact | ⟨r,m,early⟩
  · cases loose : σ.loose with
    | false => exact .inr ⟨(stores.exact exact).levels loose here,(stores.exact exact).levelCount⟩
    | true => exact .inl ((stores.loose loose).levels here)
  · exact .inl ((stores.early r m early).levels here).2

theorem bounds (here : n.levels i j) : i < s.levels.size ↔ j < t.levels.size := by
  have := stores.placed here
  omega

theorem oneSame : OneToOne (σ.Same n) := by
  unfold Setting.Same
  split
  · rintro _ _ _ _ rfl rfl
    rfl
  · exact stores.oneLevel

theorem sameCount (loose : σ.loose = true) : s.levels.size = t.levels.size :=
  (stores.exact (stores.loose loose).exact).levelCount

theorem unraised_push (l : Level) : Unraised σ n t { t with levels := t.levels.push l } := by
  intro r m early p q here parent
  rwa [levelAt_push,if_neg ((stores.early r m early).levels here).2.2.ne] at parent

theorem data {next next' : Nat} {registry registry' : Registry} {arena arena' : Arena}
    (number : next = next') (records : registry = registry') (shared : arena = arena') :
    Stores σ n { s with next,registry,arena } { t with next := next',registry := registry',arena := arena' } where
  next := number
  options := stores.options
  registry := records
  arena := shared
  oneSlot := stores.oneSlot
  oneLevel := stores.oneLevel
  slot := stores.slot
  level _ _ here := (stores.level here).mono (.refl n) (fun _ _ _ _ _ _ => id) fun _ _ => id
  exact exact :=
    have known := stores.exact exact
    ⟨known.slots,known.levels,known.slotCount,known.levelCount⟩
  loose loose :=
    have known := stores.loose loose
    ⟨known.exact,known.levels,known.seen⟩
  early r m early :=
    have known := stores.early r m early
    ⟨known.slots,known.levels,known.root,known.above,fun unrisen =>
      (known.pristine unrisen).imp fun _ p => ⟨p.level,p.slots,p.apart,p.alone⟩⟩

theorem addSlots (each : Forall₂ (Values σ n) vs ws) : Stores σ (n.withSlots s.slots.size t.slots.size vs.length)
      { s with slots := s.slots ++ vs.toArray } { t with slots := t.slots ++ ws.toArray } := by
  have within : n.Within (n.withSlots s.slots.size t.slots.size vs.length) := Numbering.within_withSlots _ _ _
  have new (k : Nat) : Option.Rel (Values σ (n.withSlots s.slots.size t.slots.size vs.length))
      vs.toArray[k]? ws.toArray[k]? := by
    rw [getElem?_toArray,getElem?_toArray]
    exact Values.option (forall₂_getElem? each k) within
  -- where both runs number alike, slots that are still to come correspond already
  have old {a b : Nat} (here : n.slots a b) : a < s.slots.size ∧ b < t.slots.size ∨
        s.slots.size ≤ a ∧ t.slots.size ≤ b ∧ a - s.slots.size = b - t.slots.size := by
    rcases σ.cases with exact | ⟨r,m,early⟩
    · obtain rfl := (stores.exact exact).slots here
      have := (stores.exact exact).slotCount
      omega
    · exact .inl ((stores.early r m early).slots here)
  refine ⟨stores.next,stores.options,stores.registry,stores.arena,?_,stores.oneLevel,?_,
    fun i j here => (stores.level here).mono within (fun _ _ _ _ _ _ => id) fun _ _ => id,?_,
    fun loose => ⟨(stores.loose loose).exact,(stores.loose loose).levels,(stores.loose loose).seen⟩,
    fun r m early => (stores.early r m early).addSlots each.length_eq⟩
  · refine Numbering.oneToOne_withSlots stores.oneSlot fun x y here k _ => ?_
    rcases old here with inside | beyond
    · omega
    · omega
  · intro a b here
    rw [Array.getElem?_append,Array.getElem?_append]
    rcases here with here | ⟨k,_,rfl,rfl⟩
    · rcases old here with ⟨left,right⟩ | ⟨left,right,same⟩
      · rw [if_pos left,if_pos right]
        exact Values.option (stores.slot here) within
      · rw [if_neg (not_lt.mpr left),if_neg (not_lt.mpr right),same]
        exact new _
    · rw [if_neg (by omega),if_neg (by omega),Nat.add_sub_cancel_left,Nat.add_sub_cancel_left]
      exact new k
  · intro exact
    have known := stores.exact exact
    refine ⟨?_,known.levels,?_,known.levelCount⟩
    · rintro a b (here | ⟨k,_,rfl,rfl⟩)
      · exact known.slots here
      · rw [known.slotCount]
    · simp [known.slotCount,each.length_eq]

theorem extendAll {env env' : Env} (like : EnvLike σ n names env env')
    {entries entries' : List (String × Value)} (each : Entries σ n entries entries') :
    EnvLike σ (n.withSlots s.slots.size t.slots.size entries.length)
        (fun x => x ∈ entries.map Prod.fst ∨ names x) (env.extendAll s.slots entries).1
        (env'.extendAll t.slots entries').1 ∧
      Stores σ (n.withSlots s.slots.size t.slots.size entries.length)
        { s with slots := (env.extendAll s.slots entries).2 }
        { t with slots := (env'.extendAll t.slots entries').2 } := by
  have named : entries'.map Prod.fst = entries.map Prod.fst := by
    induction each with
    | nil => rfl
    | cons first _ ih => rw [map_cons,map_cons,first.1,ih]
  have values : Forall₂ (Values σ n) (entries.map Prod.snd) (entries'.map Prod.snd) := by
    rw [forall₂_map_left_iff,forall₂_map_right_iff]
    exact each.imp fun _ _ both => both.2
  rw [Env.extendAll_eq,Env.extendAll_eq,named]
  have grown := like.stacked (entries.map Prod.fst) s.slots.size t.slots.size
  have after := stores.addSlots values
  rw [length_map] at grown after
  exact ⟨grown,after⟩

theorem setSlot (here : n.slots a b) (like : Values σ n v w) :
    Stores σ n { s with slots := s.slots.setIfInBounds a v } { t with slots := t.slots.setIfInBounds b w } := by
  refine ⟨stores.next,stores.options,stores.registry,stores.arena,stores.oneSlot,stores.oneLevel,
    ?_,fun i j here => (stores.level here).mono (.refl n) (fun _ _ _ _ _ _ => id) fun _ _ => id,?_,
    fun loose => ⟨(stores.loose loose).exact,(stores.loose loose).levels,(stores.loose loose).seen⟩,?_⟩
  · intro a' b' there
    have held := stores.slot there
    rw [Array.getElem?_setIfInBounds,Array.getElem?_setIfInBounds]
    by_cases same : a = a'
    · have same' := (stores.oneSlot here there).mp same
      subst same same'
      rw [if_pos rfl,if_pos rfl]
      by_cases inside : a < s.slots.size
      · have inside' : b < t.slots.size := by
          rw [Array.getElem?_eq_getElem inside] at held
          by_contra beyond
          rw [Array.getElem?_eq_none (not_lt.mp beyond)] at held
          cases held
        rw [if_pos inside,if_pos inside']
        exact .some like
      · have beyond : ¬ b < t.slots.size := by
          intro inside'
          rw [Array.getElem?_eq_getElem inside',Array.getElem?_eq_none (not_lt.mp inside)] at held
          cases held
        rw [if_neg inside,if_neg beyond]
        exact .none
    · rw [if_neg same,if_neg fun equal => same ((stores.oneSlot here there).mpr equal)]
      exact held
  · intro exact
    have known := stores.exact exact
    exact ⟨known.slots,known.levels,by simpa using known.slotCount,known.levelCount⟩
  · intro r m early
    have known := stores.early r m early
    refine ⟨by simpa using known.slots,known.levels,known.root,known.above,fun unrisen => ?_⟩
    obtain ⟨base,pristine⟩ := known.pristine unrisen
    refine ⟨base,pristine.level,fun k op found => ?_,pristine.apart,pristine.alone⟩
    rw [Array.getElem?_setIfInBounds,if_neg]
    · exact pristine.slots k op found
    · rintro rfl
      have := pristine.apart _ _ here
      have := lt_of_getElem? found
      omega

theorem addLevel (like : LevelLike σ n t names l l') :
    Stores σ (n.withLevel s.levels.size t.levels.size names) { s with levels := s.levels.push l }
      { t with levels := t.levels.push l' } := by
  have within : n.Within (n.withLevel s.levels.size t.levels.size names) := Numbering.within_withLevel _ _
  have unraised := stores.unraised_push l'
  have aside ⦃i j : Nat⦄ (here : n.levels i j) : i = s.levels.size ↔ j = t.levels.size := by
    have := stores.placed here
    omega
  have like : LevelLike σ (n.withLevel s.levels.size t.levels.size names) _
      ((n.withLevel s.levels.size t.levels.size names).seen s.levels.size) l l' :=
    like.mono within unraised fun loose x named =>
      (named.resolve_left fun old => lt_irrefl _ ((stores.loose loose).seen old)).2
  refine ⟨stores.next,stores.options,stores.registry,stores.arena,stores.oneSlot,
    Numbering.oneToOne_withLevel stores.oneLevel aside,
    fun a b here => Values.option (stores.slot here) within,?_,fun exact => ?_,fun loose => ?_,
    fun r m early => (stores.early r m early).addLevel l l'⟩
  · rintro i j (here | ⟨rfl,rfl⟩)
    · rw [levelAt_push,levelAt_push]
      by_cases new : i = s.levels.size
      · rw [if_pos new,if_pos ((aside here).mp new),new]
        exact like
      · rw [if_neg new,if_neg fun last => new ((aside here).mpr last)]
        exact (stores.level here).mono within unraised fun _ x named => named.resolve_right fun last => new last.1
    · rw [levelAt_push,levelAt_push,if_pos rfl,if_pos rfl]
      exact like
  · have known := stores.exact exact
    refine ⟨known.slots,fun strict => ?_,known.slotCount,by simp [known.levelCount]⟩
    rintro i j (here | ⟨rfl,rfl⟩)
    · exact known.levels strict here
    · exact known.levelCount
  · have known := stores.loose loose
    refine ⟨known.exact,?_,?_⟩
    · rintro i j (here | ⟨rfl,rfl⟩)
      · have := known.levels here
        simp only [Array.size_push]
        omega
      · simp
    · rintro i x (named | ⟨rfl,_⟩)
      · have := known.seen named
        simp only [Array.size_push]
        omega
      · simp

theorem modify (here : n.levels i j) (unraised : Unraised σ n t { t with levels := t.levels.modify j g })
    (unrisen : ∀ r m, σ.early = some (r,m) → (levelAt { s with levels := s.levels.modify i f } r).parent = none →
      (s.levelAt r).parent = none)
    (like : LevelLike σ n { t with levels := t.levels.modify j g } names (f (s.levelAt i)) (g (t.levelAt j)))
    (covers : ∀ x, n.seen i x → names x) :
    Stores σ (n.withNames i names) { s with levels := s.levels.modify i f }
      { t with levels := t.levels.modify j g } := by
  have within : n.Within (n.withNames i names) := Numbering.within_withNames i
  refine ⟨stores.next,stores.options,stores.registry,stores.arena,stores.oneSlot,stores.oneLevel,
    fun a b here => Values.option (stores.slot here) within,?_,fun exact => ?_,fun loose => ?_,
    fun r m early => ?_⟩
  · intro i' j' there
    rw [levelAt_update,levelAt_update]
    by_cases changed : i' = i ∧ i < s.levels.size
    · have same := (stores.oneLevel there here).mp changed.1
      rw [if_pos changed,if_pos ⟨same,(stores.bounds here).mp changed.2⟩,changed.1]
      exact like.mono within (fun _ _ _ _ _ _ => id) fun _ x named => named.elim (covers x) (·.2)
    · rw [if_neg changed,if_neg fun both =>
        changed ⟨(stores.oneLevel there here).mpr both.1,(stores.bounds here).mpr both.2⟩]
      refine (stores.level there).mono within unraised fun loose x named => ?_
      exact named.resolve_right fun new => changed ⟨new.1,((stores.loose loose).levels here).1⟩
  · have known := stores.exact exact
    exact ⟨known.slots,known.levels,known.slotCount,by simpa using known.levelCount⟩
  · have known := stores.loose loose
    refine ⟨known.exact,by simpa [Numbering.withNames] using known.levels,?_⟩
    rintro k x (named | ⟨rfl,_⟩)
    · simpa using known.seen named
    · simpa using (known.levels here).1
  · have known := stores.early r m early
    refine ⟨known.slots,by simpa [Numbering.withNames] using known.levels,by simpa using known.root,
      by simpa using known.above,fun none => ?_⟩
    obtain ⟨base,pristine⟩ := known.pristine (unrisen r m early none)
    refine ⟨base,?_,pristine.slots,pristine.apart,pristine.alone⟩
    rw [levelAt_update,if_neg]
    · exact pristine.level
    · rintro ⟨rfl,_⟩
      exact pristine.alone i here

theorem update (here : n.levels i j) (left : ∀ l, (f l).parent = l.parent) (right : ∀ l, (g l).parent = l.parent)
    (like : LevelLike σ n t names (f (s.levelAt i)) (g (t.levelAt j)))
    (covers : ∀ x, n.seen i x → names x) :
    Stores σ (n.withNames i names) { s with levels := s.levels.modify i f }
      { t with levels := t.levels.modify j g } := by
  have unraised : Unraised σ n t { t with levels := t.levels.modify j g } := by
    intro r m early p q _ parent
    rwa [parent_update t j right] at parent
  refine stores.modify here unraised (fun r m early parent => ?_)
    (like.mono (.refl n) unraised fun _ _ => id) covers
  rwa [parent_update s i left] at parent

theorem addRoot : Stores σ (n.withRoot s.slots.size t.slots.size s.levels.size t.levels.size) s.addRoot.2
      t.addRoot.2 := by
  have grown := stores.addSlots (values_prims σ n)
  rw [length_map] at grown
  rw [s.addRoot_eq,t.addRoot_eq]
  exact grown.addLevel (rootLike σ n _ _ _)

theorem raise (here : n.levels i j) : Stores σ (n.raised s t i) (s.raised i) (t.raised j) := by
  have grown := stores.addRoot
  have within : n.Within (n.withRoot s.slots.size t.slots.size s.levels.size t.levels.size) :=
    Numbering.within_withRoot _ _ _ _
  have unraised : Unraised σ (n.withRoot s.slots.size t.slots.size s.levels.size t.levels.size)
      t.addRoot.2 (t.raised j) := by
    intro r m early p q _ parent
    have inside := (stores.early r m early).above
    rw [levelAt_raised] at parent
    split at parent
    · have same := Option.some.inj parent
      omega
    · exact parent
  refine grown.modify (within.levels here) unraised (fun r m early parent => ?_) ?_ fun _ => id
  · rw [levelAt_update] at parent
    split at parent
    · cases parent
    · exact parent
  · have like := (grown.level (within.levels here)).mono (.refl _) unraised fun _ _ => id
    refine ⟨⟨.some (.inr ⟨rfl,rfl⟩) (fun loose => ?_) fun r m early => ?_,like.handlers,like.staging,
      like.known⟩,like.env,like.releases⟩
    · exact ⟨stores.sameCount loose,fun _ => .inr ⟨rfl,trivial⟩⟩
    · have known := stores.early r m early
      refine ⟨known.root.ne',fun parent => ?_⟩
      have raised := unraised r m early _ _ (.inr ⟨rfl,rfl⟩) parent
      rw [levelAt_addRoot,if_pos rfl,root_parent] at raised
      cases raised

section Rise

variable {r m j base : Nat} (early : σ.early = some (r,m)) (pristine : Pristine n t m base)

include early

/-- A setting with a level that is there early is not loose. -/
theorem not_loose {P : Prop} (loose : σ.loose = true) : P := by
  rw [(stores.loose loose).exact] at early
  cases early

include pristine

theorem rise_slot (here : (n.withRoot s.slots.size base s.levels.size m).slots a b) :
    Option.Rel (Values σ (n.withRoot s.slots.size base s.levels.size m)) (s.raised r).slots[a]? t.slots[b]? := by
  have slots : (s.raised r).slots = s.slots ++ (all.map prim).toArray := by
    rw [s.raised_eq]
  rw [slots]
  rcases here with here | ⟨k,short,rfl,rfl⟩
  · rw [Array.getElem?_append,if_pos ((stores.early r m early).slots here).1]
    exact Values.option (stores.slot here) (Numbering.within_withRoot _ _ _ _)
  · have found := getElem?_eq_getElem short
    rw [getElem?_append_prims s.slots found,pristine.slots k _ found]
    exact .some (.prim _)

theorem rise_level (here : n.levels r j) (above : (t.levelAt j).parent = some m) {i : Nat}
    (there : (n.withRoot s.slots.size base s.levels.size m).levels i k) :
    LevelLike σ (n.withRoot s.slots.size base s.levels.size m) t names ((s.raised r).levelAt i) (t.levelAt k) := by
  have known := stores.early r m early
  rcases there with there | ⟨rfl,rfl⟩
  · have like : LevelLike σ (n.withRoot s.slots.size base s.levels.size m) t names (s.levelAt i) (t.levelAt k) :=
      (stores.level there).mono (Numbering.within_withRoot _ _ _ _) (fun _ _ _ _ _ _ => id) (stores.not_loose early)
    rw [s.levelAt_raised_old known.root (known.levels there).2.1.ne]
    split
    · next same =>
      subst same
      obtain rfl := (stores.oneLevel here there).mp rfl
      refine ⟨⟨?_,like.handlers,like.staging,like.known⟩,like.env,like.releases⟩
      rw [above]
      refine .some (.inr ⟨rfl,rfl⟩) (stores.not_loose early) fun r' m' early' => ?_
      cases early.symm.trans early'
      refine ⟨known.root.ne',?_⟩
      rw [pristine.level,root_parent]
      exact (Option.some_ne_none m).symm
    · exact like
  · rw [s.levelAt_raised_new known.root,pristine.level]
    exact (rootLike σ n t _ _).mono (Numbering.within_withLevel _ _) (fun _ _ _ _ _ _ => id) fun _ _ _ => trivial

/-- The first run makes the level above the root, which the second run has. -/
theorem rise (here : n.levels r j) (above : (t.levelAt j).parent = some m) :
    Stores σ (n.withRoot s.slots.size base s.levels.size m) (s.raised r) t := by
  have known := stores.early r m early
  refine ⟨?_,?_,?_,?_,?_,?_,fun _ _ => stores.rise_slot early pristine,
    fun _ _ => stores.rise_level early pristine here above,fun exact => ?_,stores.not_loose early,
    fun r' m' early' => ?_⟩
  · rw [s.raised_eq,stores.next]
  · rw [s.raised_eq,stores.options]
  · rw [s.raised_eq,stores.registry]
  · rw [s.raised_eq,stores.arena]
  · refine Numbering.oneToOne_withSlots stores.oneSlot fun x y here k short => ?_
    have := (known.slots here).1
    have := pristine.apart x y here
    omega
  · refine Numbering.oneToOne_withLevel (n := n.withSlots _ _ _) stores.oneLevel fun x y here => ?_
    exact iff_of_false (known.levels here).2.1.ne fun same => pristine.alone x (same ▸ here)
  · rw [early] at exact
    cases exact
  · cases early.symm.trans early'
    exact known.rise pristine

end Rise

end Stores

end Twin

end StagedLisp
