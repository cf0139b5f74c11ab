import StagedLisp.Proofs.Eval.Levels
import StagedLisp.Proofs.Form.Let

/-! Environments as chains of shared frames. An extension makes one new frame, and whatever is built on it
shares it. So an assignment is seen wherever a name leads to the very frame that is written to, and nowhere
else. -/
namespace StagedLisp

open List

variable {env : Env} {slots : Slots} {x y : String} {i : Nat} {v w : Value}

theorem Slots.getElem?_push_of_some (held : slots[i]? = some w) (v : Value) : (slots.push v)[i]? = some w := by
  have inside := (Array.getElem?_eq_some_iff.mp held).1
  rw [Array.getElem?_push,if_neg (Nat.ne_of_lt inside),held]

namespace Env

theorem slot?_cons (env : Env) (x y : String) (i : Nat) :
    slot? ((x,i) :: env) y = if y = x then some i else env.slot? y := by
  rw [slot?,lookup_cons]
  by_cases same : y = x
  · rw [beq_iff_eq.mpr same,if_pos same]
  · rw [beq_eq_false_iff_ne.mpr same,if_neg same,slot?]

theorem value?_push (found : env.value? slots x = some w) (v : Value) : env.value? (slots.push v) x = some w := by
  obtain ⟨i,named,held⟩ := Option.bind_eq_some_iff.mp found
  exact Option.bind_eq_some_iff.mpr ⟨i,named,Slots.getElem?_push_of_some held v⟩

theorem value?_extend (env : Env) (slots : Slots) (x y : String) (v : Value) :
    value? ((x,slots.size) :: env) (slots.push v) y = if y = x then some v else env.value? (slots.push v) y := by
  rw [value?,slot?_cons]
  split <;> simp [value?]

/-- The innermost frame of a name, with the frames behind it. -/
def frame? : Env → String → Option Env
  | [], _ => none
  | (key,slot) :: rest, name => if key = name then some ((key,slot) :: rest) else frame? rest name

theorem frame?_cases (env : Env) (x : String) :
    x ∉ env.names ∧ env.slot? x = none ∧ env.frame? x = none ∨
      x ∈ env.names ∧ ∃ i rest, env.slot? x = some i ∧ env.frame? x = some ((x,i) :: rest) ∧
        (x,i) :: rest <:+ env := by
  induction env with
  | nil => exact .inl ⟨not_mem_nil,rfl,rfl⟩
  | cons entry env ih =>
    obtain ⟨y,j⟩ := entry
    rw [slot?_cons,frame?,names,map_cons,mem_cons]
    by_cases same : x = y
    · subst same
      exact .inr ⟨.inl rfl,j,env,if_pos rfl,if_pos rfl,suffix_rfl⟩
    · rw [if_neg same,if_neg (Ne.symm same),or_iff_right same]
      refine ih.imp_right ?_
      rintro ⟨bound,i,rest,named,found,part⟩
      exact ⟨bound,i,rest,named,found,part.trans (suffix_cons ..)⟩

end Env

/-- A step of a program that keeps the environments it makes in a list. A position beyond the last one stands for
the empty environment. -/
inductive EnvStep where
  | extend (position : Nat) (name : String) (value : Value)
  | assign (position : Nat) (name : String) (value : Value)

def EnvStep.perform (envs : List Env) : EnvStep → Eval (List Env)
  | extend position name value => return envs ++ [← Eval.extend (envs.getD position []) name value]
  | assign position name value => do
    discard (Eval.assign (envs.getD position []) name value)
    return envs

/-- The first frame of each environment is its own and has its position for a number; behind it is an environment
that was there before. -/
structure SharedFrames (envs : List Env) (slots : Slots) : Prop where
  count : slots.size = envs.length
  built : ∀ k env, envs[k]? = some env → ∃ name rest, env = (name,k) :: rest ∧ (rest = [] ∨ rest ∈ envs)

theorem getD_nil_or_mem (envs : List Env) (i : Nat) : envs.getD i [] = [] ∨ envs.getD i [] ∈ envs := by
  rw [getD_eq_getElem?_getD]
  cases found : envs[i]? with
  | none => exact .inl rfl
  | some env => exact .inr (mem_of_getElem? found)

theorem Eval.run_assign (env : Env) (x : String) (v : Value) (s : Store) : (Eval.assign env x v).run.run s =
    (.ok (env.binds x),{ s with slots := (env.assign? s.slots x v).getD s.slots }) := by
  unfold Env.binds Env.assign? Eval.assign Env.assign?
  cases env.slot? x <;> rfl

namespace SharedFrames

variable {envs : List Env} {e f : Env} {s : Store} (shared : SharedFrames envs slots)

include shared

theorem extend (known : e = [] ∨ e ∈ envs) (x : String) (v : Value) :
    SharedFrames (envs ++ [(x,slots.size) :: e]) (slots.push v) where
  count := by simp [shared.count]
  built k env found := by
    rw [shared.count] at found
    rcases eq_or_ne k envs.length with rfl | other
    · rw [getElem?_concat_length] at found
      cases found
      exact ⟨x,e,rfl,known.imp_right (mem_append_left _)⟩
    · have inside := lt_of_getElem? found
      rw [length_append,length_singleton] at inside
      rw [getElem?_append_left (by omega)] at found
      obtain ⟨name,rest,same,tail⟩ := shared.built k env found
      exact ⟨name,rest,same,tail.imp_right (mem_append_left _)⟩

/-- Wherever a frame is met, it is the first one of the environment with its number. -/
theorem frame_number (known : f = [] ∨ f ∈ envs) {rest : Env} (part : (x,i) :: rest <:+ f) :
    envs[i]? = some ((x,i) :: rest) := by
  induction f with
  | nil => simp at part
  | cons entry f ih =>
    obtain ⟨k,found⟩ := mem_iff_getElem?.mp (known.resolve_left (by simp))
    obtain ⟨_,_,same,behind⟩ := shared.built k _ found
    cases same
    rcases suffix_cons_iff.mp part with here | later
    · cases here
      exact found
    · exact ih behind later

/-- A name is bound to a slot that holds a value, or not at all. -/
theorem lookup_cases (known : f = [] ∨ f ∈ envs) (y : String) :
    y ∉ f.names ∧ f.slot? y = none ∧ f.frame? y = none ∨
      y ∈ f.names ∧ ∃ i rest, f.slot? y = some i ∧ f.frame? y = some ((y,i) :: rest) ∧
        envs[i]? = some ((y,i) :: rest) ∧ i < slots.size := by
  refine (f.frame?_cases y).imp_right ?_
  rintro ⟨bound,i,rest,named,found,part⟩
  have number := shared.frame_number known part
  exact ⟨bound,i,rest,named,found,number,shared.count ▸ lt_of_getElem? number⟩

theorem isSome_value (known : f = [] ∨ f ∈ envs) (y : String) : (f.value? slots y).isSome ↔ y ∈ f.names := by
  rw [Env.value?]
  rcases shared.lookup_cases known y with ⟨unbound,named,_⟩ | ⟨bound,i,_,named,_,_,inside⟩
  · simp [named,unbound]
  · simp [named,bound,inside]

theorem value_set {rest : Env} (number : envs[i]? = some ((x,i) :: rest)) (known : f = [] ∨ f ∈ envs)
    (y : String) (v : Value) : f.value? (slots.setIfInBounds i v) y =
      if f.frame? y = some ((x,i) :: rest) then some v else f.value? slots y := by
  rcases shared.lookup_cases known y with ⟨_,named,found⟩ | ⟨_,j,_,named,found,number',inside⟩
  · simp [Env.value?,named,found]
  · simp only [Env.value?,named,found,Option.bind_some,Array.getElem?_setIfInBounds,Option.some.injEq]
    by_cases same : i = j
    · subst same
      rw [if_pos rfl,if_pos inside,if_pos (Option.some.inj (number'.symm.trans number))]
    · rw [if_neg same,if_neg fun frames => same (by cases frames; rfl)]

/-- An assignment tells whether the name is bound, and is seen where a name leads to the frame written to. -/
theorem assign (stored : s.slots = slots) (known : e = [] ∨ e ∈ envs) (x : String) (v : Value) :
    ∃ s', (Eval.assign e x v).run.run s = (.ok (decide (x ∈ e.names)),s') ∧ SharedFrames envs s'.slots ∧
      ∀ f : Env, f = [] ∨ f ∈ envs → ∀ y, f.value? s'.slots y =
        if x ∈ e.names ∧ f.frame? y = e.frame? x then some v else f.value? s.slots y := by
  subst stored
  rcases shared.lookup_cases known x with ⟨unbound,named,_⟩ | ⟨bound,i,rest,named,found,number,_⟩
  · refine ⟨s,?_,shared,fun f _ y => (if_neg fun both => unbound both.1).symm⟩
    rw [decide_eq_false unbound,Eval.run_assign,Env.binds,Env.assign?,named]
    rfl
  · refine ⟨{ s with slots := s.slots.setIfInBounds i v },?_,?_,fun f known' y => ?_⟩
    · rw [decide_eq_true bound,Eval.run_assign,Env.binds,Env.assign?,named]
      rfl
    · exact ⟨by rw [Array.size_setIfInBounds,shared.count],shared.built⟩
    · simp only [and_iff_right bound,found]
      exact shared.value_set number known' y v

/-- An extension changes nothing in the environments that are there, and its frame is in none of them. -/
theorem undisturbed (known : f = [] ∨ f ∈ envs) (e : Env) (x y : String) (v : Value) :
    f.value? (slots.push v) y = f.value? slots y ∧ f.frame? y ≠ Env.frame? ((x,slots.size) :: e) x := by
  rw [Env.frame?,if_pos rfl]
  rcases shared.lookup_cases known y with ⟨_,named,found⟩ | ⟨_,i,_,named,found,_,inside⟩
  · simp [Env.value?,named,found]
  · simp [Env.value?,named,found,Array.getElem?_push,Nat.ne_of_lt inside]

theorem perform (stored : s.slots = slots) (step : EnvStep) :
    ∃ envs' s', (step.perform envs).run.run s = (.ok envs',s') ∧ SharedFrames envs' s'.slots := by
  cases step with
  | extend position x v => exact ⟨_,_,rfl,stored ▸ shared.extend (getD_nil_or_mem envs position) x v⟩
  | assign position x v =>
    obtain ⟨s',ran,still,_⟩ := shared.assign stored (getD_nil_or_mem envs position) x v
    exact ⟨envs,s',Eval.run_bind_ok (Eval.run_bind_ok ran),still⟩

theorem performAll (stored : s.slots = slots) (steps : List EnvStep) :
    ∃ envs' s', (steps.foldlM EnvStep.perform envs).run.run s = (.ok envs',s') ∧ SharedFrames envs' s'.slots := by
  induction steps generalizing envs slots s with
  | nil => exact ⟨envs,s,rfl,stored ▸ shared⟩
  | cons step steps ih =>
    obtain ⟨_,_,ran,still⟩ := shared.perform stored step
    obtain ⟨envs',s',rest,last⟩ := ih still rfl
    exact ⟨envs',s',(Eval.run_bind_ok ran).trans rest,last⟩

end SharedFrames

/-- Whatever environments have been made and assigned to: an assignment tells whether its name is bound, and
changes what exactly those names stand for that lead to the frame of its name. An extension makes a frame that
none of the environments has, hides its own name with it and shares the other frames, and changes nothing in
the environments that are there. -/
theorem environments_share_frames (steps : List EnvStep) : ∃ envs s,
    (steps.foldlM EnvStep.perform []).run.run {} = (.ok envs,s) ∧
    ∀ i : Nat, let e := envs.getD i []
      (∀ x, (e.value? s.slots x).isSome ↔ x ∈ e.names) ∧
      ∀ x v,
        (∃ s', (Eval.assign e x v).run.run s = (.ok (decide (x ∈ e.names)),s') ∧
          ∀ (j : Nat) y, let f := envs.getD j []
            f.value? s'.slots y = if x ∈ e.names ∧ f.frame? y = e.frame? x then some v else f.value? s.slots y) ∧
        ∃ e' s', (Eval.extend e x v).run.run s = (.ok e',s') ∧
          (∀ y, e'.value? s'.slots y = (if y = x then some v else e.value? s.slots y) ∧
            (y = x ∨ e'.frame? y = e.frame? y)) ∧
          ∀ (j : Nat) y, let f := envs.getD j []
            f.value? s'.slots y = f.value? s.slots y ∧ f.frame? y ≠ e'.frame? x := by
  have start : SharedFrames [] #[] := ⟨rfl,by simp⟩
  obtain ⟨envs,s,ran,shared⟩ := start.performAll (s := {}) rfl steps
  refine ⟨envs,s,ran,fun i => ?_⟩
  have known := getD_nil_or_mem envs
  refine ⟨shared.isSome_value (known i),fun x v => ⟨?_,_,_,rfl,fun y => ?_,fun j y => ?_⟩⟩
  · obtain ⟨s',assigned,_,seen⟩ := shared.assign rfl (known i) x v
    exact ⟨s',assigned,fun j => seen _ (known j)⟩
  · refine ⟨(Env.value?_extend ..).trans (by rw [(shared.undisturbed (known i) [] x y v).1]),?_⟩
    exact or_iff_not_imp_left.mpr fun other => if_neg (Ne.symm other)
  · exact shared.undisturbed (known j) _ x y v

example : ((do
    let base ← Eval.extend [] "b" (.int 2)
    let env ← Eval.extend base "a" (.int 1)
    let bound ← Eval.assign env "b" (.int 20)
    return (bound,(← Eval.value? base "b").bind Value.int?) : Eval (Bool × Option Int64)).run.run {}).1.toOption =
      some (true,some 20) := rfl

end StagedLisp
