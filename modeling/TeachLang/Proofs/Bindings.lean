import TeachLang.Proofs.Semantics

/-!
# A stack for each name

Variable scopes can also be kept name by name: for each name a stack of its bindings, each with the
depth of the scope that it was made in. On every sequence of requests the two give the same answers.
The bindings of a name are those that its scopes have, so their depths strictly decrease from the
top.
-/

namespace TeachLang

structure Keeping (σ : Type) where
  push : σ → σ
  pop : σ → Except Fault σ
  declare : σ → String → Int64 → Except Fault σ
  assign : σ → String → Int64 → σ
  get? : σ → String → Option Int64
  lookup : σ → String → Except Fault Int64
  declaredInner : σ → String → Bool
  depth : σ → Nat

inductive Request where
  | push | pop
  | declare (name : String) (value : Int64)
  | assign (name : String) (value : Int64)
  | get (name : String)
  | lookup (name : String)
  | declaredInner (name : String)
  | depth

inductive Answer where
  | done
  | fault (f : Fault)
  | value (v : Option Int64)
  | flag (b : Bool)
  | count (n : Nat)
  deriving DecidableEq

namespace Keeping

variable {σ τ : Type} (k : Keeping σ) (l : Keeping τ)

def changed (s : σ) : Except Fault σ → Answer × σ
  | .ok s' => (.done, s')
  | .error f => (.fault f, s)

def found : Except Fault Int64 → Answer
  | .ok v => .value (some v)
  | .error f => .fault f

def answer (s : σ) : Request → Answer × σ
  | .push => (.done, k.push s)
  | .pop => changed s (k.pop s)
  | .declare x v => changed s (k.declare s x v)
  | .assign x v => (.done, k.assign s x v)
  | .get x => (.value (k.get? s x), s)
  | .lookup x => (found (k.lookup s x), s)
  | .declaredInner x => (.flag (k.declaredInner s x), s)
  | .depth => (.count (k.depth s), s)

def answers (s : σ) : List Request → List Answer × σ
  | [] => ([], s)
  | r :: rs => ((k.answer s r).1 :: ((answers (k.answer s r).2 rs).1),
      (answers (k.answer s r).2 rs).2)

/-- What is done on one side is done on the other, and what is asked has the same answer. -/
structure Refines (abs : σ → τ) : Prop where
  push (s : σ) : l.push (abs s) = abs (k.push s)
  pop (s : σ) : l.pop (abs s) = (k.pop s).map abs
  declare (s : σ) (x : String) (v : Int64) : l.declare (abs s) x v = (k.declare s x v).map abs
  assign (s : σ) (x : String) (v : Int64) : l.assign (abs s) x v = abs (k.assign s x v)
  get? (s : σ) (x : String) : l.get? (abs s) x = k.get? s x
  lookup (s : σ) (x : String) : l.lookup (abs s) x = k.lookup s x
  declaredInner (s : σ) (x : String) : l.declaredInner (abs s) x = k.declaredInner s x
  depth (s : σ) : l.depth (abs s) = k.depth s

variable {k l} {abs : σ → τ}

theorem changed_map (s : σ) (r : Except Fault σ) :
    changed (abs s) (r.map abs) = ((changed s r).1, abs (changed s r).2) := by
  cases r <;> rfl

theorem Refines.answer (h : k.Refines l abs) (s : σ) (r : Request) :
    l.answer (abs s) r = ((k.answer s r).1, abs (k.answer s r).2) := by
  cases r with
  | push => simp only [Keeping.answer, h.push]
  | pop => simp only [Keeping.answer, h.pop, changed_map]
  | declare x v => simp only [Keeping.answer, h.declare, changed_map]
  | assign x v => simp only [Keeping.answer, h.assign]
  | get x => simp only [Keeping.answer, h.get?]
  | lookup x => simp only [Keeping.answer, h.lookup]
  | declaredInner x => simp only [Keeping.answer, h.declaredInner]
  | depth => simp only [Keeping.answer, h.depth]

theorem Refines.answers (h : k.Refines l abs) (s : σ) (rs : List Request) :
    l.answers (abs s) rs = ((k.answers s rs).1, abs (k.answers s rs).2) := by
  induction rs generalizing s with
  | nil => rfl
  | cons r rs ih => simp only [Keeping.answers, h.answer, ih]

end Keeping

def Scopes.keeping : Keeping Scopes where
  push := push
  pop := pop
  declare := declare
  assign := assign
  get? := get?
  lookup := lookup
  declaredInner := declaredInner
  depth := depth

structure ByName where
  depth : Nat := 1
  bindings : String → List (Nat × Int64) := fun _ => []

namespace ByName

variable (s : ByName) (x : String) (v : Int64)

def setBindings (bs : List (Nat × Int64)) : ByName :=
  { s with bindings := fun y => if y = x then bs else s.bindings y }

def push : ByName := { s with depth := s.depth + 1 }

def pop : Except Fault ByName :=
  if s.depth = 1 then .error .leavingGlobalScope
  else .ok ⟨s.depth - 1, fun y => (s.bindings y).filter fun b => b.1 ≠ s.depth⟩

def get? : Option Int64 := (s.bindings x).head?.map Prod.snd

def lookup : Except Fault Int64 :=
  match s.get? x with
  | some v => .ok v
  | none => .error (.undefinedVariable x)

def declaredInner : Bool := (s.bindings x).head?.any fun b => b.1 = s.depth

def declare : Except Fault ByName :=
  if s.declaredInner x then .error (.duplicateDeclaration x)
  else .ok (s.setBindings x ((s.depth, v) :: s.bindings x))

def assign : ByName :=
  match s.bindings x with
  | [] => s.setBindings x [(s.depth, v)]
  | (d, _) :: bs => s.setBindings x ((d, v) :: bs)

def keeping : Keeping ByName where
  push := push
  pop := pop
  declare := declare
  assign := assign
  get? := get?
  lookup := lookup
  declaredInner := declaredInner
  depth := depth

end ByName

namespace Scopes

variable {x y : String} {v : Int64} {f : Frame} {fs before rest : List Frame}

/-- The bindings of a name in some frames, of which the last one has depth 1. -/
def bindingsIn (x : String) : List Frame → List (Nat × Int64)
  | [] => []
  | f :: fs =>
    match f.get? x with
    | some v => (fs.length + 1, v) :: bindingsIn x fs
    | none => bindingsIn x fs

def byName (s : Scopes) : ByName := ⟨s.depth, fun x => bindingsIn x s.frames⟩

theorem bindingsIn_of_some (h : f.get? x = some v) :
    bindingsIn x (f :: fs) = (fs.length + 1, v) :: bindingsIn x fs := by
  rw [bindingsIn, h]

theorem bindingsIn_of_none (h : f.get? x = none) :
    bindingsIn x (f :: fs) = bindingsIn x fs := by
  rw [bindingsIn, h]

theorem depth_of_mem_bindingsIn {b : Nat × Int64} (h : b ∈ bindingsIn x fs) :
    1 ≤ b.1 ∧ b.1 ≤ fs.length := by
  induction fs with
  | nil => simp [bindingsIn] at h
  | cons f fs ih =>
    rw [List.length_cons]
    cases hf : f.get? x with
    | none =>
      have hb := ih (by rwa [bindingsIn_of_none hf] at h)
      omega
    | some v =>
      rw [bindingsIn_of_some hf, List.mem_cons] at h
      rcases h with rfl | h
      · exact ⟨Nat.le_add_left 1 fs.length, Nat.le_refl _⟩
      · have hb := ih h
        omega

theorem pairwise_bindingsIn (x : String) (fs : List Frame) :
    (bindingsIn x fs).Pairwise fun b c => c.1 < b.1 := by
  induction fs with
  | nil => exact .nil
  | cons f fs ih =>
    cases hf : f.get? x with
    | none => rwa [bindingsIn_of_none hf]
    | some v =>
      rw [bindingsIn_of_some hf]
      apply List.Pairwise.cons _ ih
      intro b hb
      exact Nat.lt_succ_of_le (depth_of_mem_bindingsIn hb).2

theorem has_eq_false_iff : f.has x = false ↔ f.get? x = none := by
  rw [Frame.has, Option.isSome_eq_false_iff, Option.isNone_iff_eq_none]

theorem has_iff : f.has x = true ↔ ∃ v, f.get? x = some v := by
  rw [Frame.has, Option.isSome_iff_exists]

theorem findSome?_eq_head? (x : String) (fs : List Frame) :
    fs.findSome? (·.get? x) = (bindingsIn x fs).head?.map Prod.snd := by
  induction fs with
  | nil => rfl
  | cons f fs ih =>
    rw [List.findSome?_cons]
    cases hf : f.get? x with
    | none => rw [bindingsIn_of_none hf, ih]
    | some v => rw [bindingsIn_of_some hf]; rfl

/-- Only the innermost frame has bindings of its depth. -/
theorem any_head?_bindingsIn (x : String) (f : Frame) (fs : List Frame) :
    ((bindingsIn x (f :: fs)).head?.any fun b => b.1 = fs.length + 1) = f.has x := by
  cases hf : f.get? x with
  | some v =>
    rw [bindingsIn_of_some hf, has_iff.2 ⟨v, hf⟩]
    simp
  | none =>
    rw [bindingsIn_of_none hf, has_eq_false_iff.2 hf]
    cases hb : (bindingsIn x fs).head? with
    | none => rfl
    | some b =>
      have hdepth := depth_of_mem_bindingsIn (List.mem_of_head? hb)
      simp only [Option.any_some, decide_eq_false_iff_not]
      omega

theorem filter_bindingsIn (x : String) (f : Frame) (fs : List Frame) :
    (bindingsIn x (f :: fs)).filter (fun b => b.1 ≠ fs.length + 1) = bindingsIn x fs := by
  have hrest : (bindingsIn x fs).filter (fun b => b.1 ≠ fs.length + 1) = bindingsIn x fs := by
    rw [List.filter_eq_self]
    intro b hb
    have hdepth := depth_of_mem_bindingsIn hb
    simp only [decide_eq_true_eq]
    omega
  cases hf : f.get? x with
  | none => rw [bindingsIn_of_none hf, hrest]
  | some v =>
    rw [bindingsIn_of_some hf, List.filter_cons_of_neg (by simp), hrest]

theorem bindingsIn_set_of_ne (h : y ≠ x) :
    bindingsIn y (f.set x v :: fs) = bindingsIn y (f :: fs) := by
  rw [bindingsIn, bindingsIn, Frame.get?_set, if_neg (Ne.symm h)]

theorem bindingsIn_set (x : String) (v : Int64) (f : Frame) (fs : List Frame) :
    bindingsIn x (f.set x v :: fs) = (fs.length + 1, v) :: bindingsIn x fs := by
  rw [bindingsIn, Frame.get?_set, if_pos rfl]

theorem bindingsIn_append (hbefore : ∀ g ∈ before, g.has x = false) :
    bindingsIn x (before ++ fs) = bindingsIn x fs := by
  induction before with
  | nil => rfl
  | cons g before ih =>
    have hg := has_eq_false_iff.1 (hbefore g List.mem_cons_self)
    rw [List.cons_append, bindingsIn_of_none hg]
    exact ih fun g' hg' => hbefore g' (List.mem_cons_of_mem g hg')

/-- Frames of which one is replaced by another with the same binding of the name. -/
theorem bindingsIn_congr {g : Frame} (h : bindingsIn y (f :: rest) = bindingsIn y (g :: rest))
    (before : List Frame) :
    bindingsIn y (before ++ f :: rest) = bindingsIn y (before ++ g :: rest) := by
  induction before with
  | nil => exact h
  | cons e before ih =>
    have hlength : (before ++ f :: rest).length = (before ++ g :: rest).length := by simp
    rw [List.cons_append, List.cons_append, bindingsIn, bindingsIn, ih, hlength]

theorem byName_push (s : Scopes) : s.byName.push = s.push.byName := rfl

theorem byName_pop (s : Scopes) : s.byName.pop = s.pop.map byName := by
  obtain ⟨f, _ | ⟨g, fs⟩⟩ := s
  · rfl
  · have hdepth : ¬(byName ⟨f, g :: fs⟩).depth = 1 := by simp [byName, depth]
    have hbindings : (fun x => ((byName ⟨f, g :: fs⟩).bindings x).filter
        fun b => b.1 ≠ (g :: fs).length + 1) = (byName ⟨g, fs⟩).bindings :=
      funext fun x => filter_bindingsIn x f (g :: fs)
    rw [ByName.pop, if_neg hdepth]
    exact congrArg (fun bs => Except.ok (ByName.mk (fs.length + 1) bs)) hbindings

theorem byName_get? (s : Scopes) (x : String) : s.byName.get? x = s.get? x :=
  (findSome?_eq_head? x s.frames).symm

theorem byName_declaredInner (s : Scopes) (x : String) :
    s.byName.declaredInner x = s.declaredInner x :=
  any_head?_bindingsIn x s.inner s.outer

theorem byName_set (s : Scopes) (x : String) (v : Int64) :
    byName { s with inner := s.inner.set x v } =
      s.byName.setBindings x ((s.depth, v) :: bindingsIn x s.outer) := by
  simp only [byName, ByName.setBindings, ByName.mk.injEq]
  refine ⟨rfl, funext fun y => ?_⟩
  by_cases hy : y = x
  · rw [if_pos hy, hy]
    exact bindingsIn_set x v s.inner s.outer
  · rw [if_neg hy]
    exact bindingsIn_set_of_ne hy

theorem byName_declare (s : Scopes) (x : String) (v : Int64) :
    s.byName.declare x v = (s.declare x v).map byName := by
  unfold ByName.declare declare
  rw [byName_declaredInner]
  by_cases hx : s.declaredInner x = true
  · rw [if_pos hx, if_pos hx]
    rfl
  · rw [if_neg hx, if_neg hx]
    have hnone := has_eq_false_iff.1 (Bool.eq_false_iff.2 hx)
    have hbindings : s.byName.bindings x = bindingsIn x s.outer := bindingsIn_of_none hnone
    change _ = Except.ok (byName { s with inner := s.inner.set x v })
    rw [byName_set, hbindings]
    rfl

theorem byName_assign (s : Scopes) (x : String) (v : Int64) :
    s.byName.assign x v = (s.assign x v).byName := by
  have hassigns : s.Assigns x v (s.assign x v) := assigns_iff.2 rfl
  generalize s.assign x v = s' at hassigns ⊢
  cases hassigns with
  | create h =>
    have hnone : bindingsIn x s.frames = [] := by
      rw [← List.append_nil s.frames, bindingsIn_append h]
      rfl
    have houter : bindingsIn x s.outer = [] := by
      rw [← hnone, frames, bindingsIn_of_none (has_eq_false_iff.1 (h s.inner List.mem_cons_self))]
    rw [byName_set, houter, ByName.assign]
    simp only [byName, hnone]
  | @nearest s' before rest f hs hbefore hf hs' =>
    obtain ⟨w, hw⟩ := has_iff.1 hf
    have hold : s.byName.bindings x = (rest.length + 1, w) :: bindingsIn x rest := by
      change bindingsIn x s.frames = _
      rw [hs, bindingsIn_append hbefore, bindingsIn_of_some hw]
    have hdepth : s'.depth = s.depth := by
      have hlength := congrArg List.length hs
      have hlength' := congrArg List.length hs'
      simp only [frames, List.length_cons, List.length_append] at hlength hlength'
      simp only [depth]
      omega
    rw [ByName.assign, hold]
    simp only [byName, ByName.setBindings, hdepth, ByName.mk.injEq, true_and]
    funext y
    by_cases hy : y = x
    · rw [if_pos hy, hy, hs', bindingsIn_append hbefore, bindingsIn_set]
    · rw [if_neg hy, hs, hs', bindingsIn_congr (bindingsIn_set_of_ne hy) before]

theorem refines_byName : keeping.Refines ByName.keeping byName where
  push := byName_push
  pop := byName_pop
  declare := byName_declare
  assign := byName_assign
  get? := byName_get?
  lookup s x := by
    change (match s.byName.get? x with | some v => _ | none => _) = _
    rw [byName_get?]
    rfl
  declaredInner := byName_declaredInner
  depth _ := rfl

/-- Both begun anew, scopes and what is kept by name give the same answers to all requests. The
bindings are then those of the scopes, and the depths of a name strictly decrease from the top. -/
theorem answers_byName (rs : List Request) :
    let (found, s) := keeping.answers {} rs
    let (found', s') := ByName.keeping.answers {} rs
    found' = found ∧ s' = s.byName ∧ ∀ x, (s'.bindings x).Pairwise (fun b c => c.1 < b.1) ∧
      ∀ b ∈ s'.bindings x, 1 ≤ b.1 ∧ b.1 ≤ s'.depth := by
  have hstart : ({} : ByName) = ({} : Scopes).byName := rfl
  have hanswers := refines_byName.answers {} rs
  rw [← hstart] at hanswers
  simp only [hanswers, true_and]
  intro x
  exact ⟨pairwise_bindingsIn x _, fun b hb => depth_of_mem_bindingsIn hb⟩

end Scopes

end TeachLang
