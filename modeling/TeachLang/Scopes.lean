import TeachLang.Error

/-!
# Variable scopes

The scopes that are open at some point of a run, from the innermost to the global one, which is
always there. A name means its binding in the innermost scope that has one.
-/

namespace TeachLang

/-- The bindings of one scope, each name once, in the order in which they were made. -/
abbrev Frame := List (String × Int64)

namespace Frame

def get? (f : Frame) (name : String) : Option Int64 := f.lookup name

def has (f : Frame) (name : String) : Bool := (f.get? name).isSome

/-- Binds a name, in its old place if it has one. -/
def set (name : String) (value : Int64) : Frame → Frame
  | [] => [(name, value)]
  | (x, v) :: rest => if x = name then (x, value) :: rest else (x, v) :: set name value rest

@[simp] theorem get?_nil (name : String) : get? [] name = none := rfl

theorem get?_cons (x : String) (v : Int64) (f : Frame) (name : String) :
    get? ((x, v) :: f) name = if x = name then some v else f.get? name := by
  unfold get?
  rw [List.lookup_cons]
  by_cases h : x = name
  · simp [h]
  · have hne : (name == x) = false := by simp [Ne.symm h]
    simp [h, hne]

theorem get?_set (f : Frame) (x : String) (v : Int64) (name : String) :
    (f.set x v).get? name = if x = name then some v else f.get? name := by
  induction f with
  | nil => simp [set, get?_cons]
  | cons b f ih =>
    obtain ⟨y, w⟩ := b
    by_cases h : y = x
    · subst h
      by_cases hn : y = name <;> simp [set, get?_cons, hn]
    · by_cases hn : y = name
      · subst hn
        simp [set, get?_cons, h, Ne.symm h]
      · simp [set, get?_cons, h, hn, ih]

end Frame

structure Scopes where
  inner : Frame := []
  outer : List Frame := []
  deriving DecidableEq

namespace Scopes

def frames (s : Scopes) : List Frame := s.inner :: s.outer

def depth (s : Scopes) : Nat := s.outer.length + 1

def push (s : Scopes) : Scopes := ⟨[], s.frames⟩

def pop (s : Scopes) : Except Fault Scopes :=
  match s.outer with
  | [] => .error .leavingGlobalScope
  | inner :: outer => .ok ⟨inner, outer⟩

def get? (s : Scopes) (name : String) : Option Int64 := s.frames.findSome? (·.get? name)

def lookup (s : Scopes) (name : String) : Except Fault Int64 :=
  match s.get? name with
  | some value => .ok value
  | none => .error (.undefinedVariable name)

def declaredInner (s : Scopes) (name : String) : Bool := s.inner.has name

def declare (s : Scopes) (name : String) (value : Int64) : Except Fault Scopes :=
  if s.declaredInner name then .error (.duplicateDeclaration name)
  else .ok { s with inner := s.inner.set name value }

def update? (name : String) (value : Int64) : List Frame → Option (List Frame)
  | [] => none
  | f :: rest =>
    if f.has name then some (f.set name value :: rest) else (update? name value rest).map (f :: ·)

/-- Changes what a name means, or binds it in the innermost scope if it means nothing. -/
def assign (s : Scopes) (name : String) (value : Int64) : Scopes :=
  if s.declaredInner name then { s with inner := s.inner.set name value }
  else match update? name value s.outer with
    | some outer => { s with outer := outer }
    | none => { s with inner := s.inner.set name value }

@[simp] theorem depth_push (s : Scopes) : s.push.depth = s.depth + 1 := rfl

@[simp] theorem pop_push (s : Scopes) : s.push.pop = .ok s := rfl

@[simp] theorem get?_push (s : Scopes) (name : String) : s.push.get? name = s.get? name := rfl

theorem get?_eq (s : Scopes) (name : String) :
    s.get? name = (s.inner.get? name).or (s.outer.findSome? (·.get? name)) := by
  unfold get? frames
  rw [List.findSome?_cons]
  cases s.inner.get? name <;> rfl

theorem length_of_update? {name : String} {value : Int64} {fs gs : List Frame}
    (h : update? name value fs = some gs) : gs.length = fs.length := by
  induction fs generalizing gs with
  | nil => simp [update?] at h
  | cons f fs ih =>
    unfold update? at h
    split at h
    · cases h; rfl
    · obtain ⟨hs, hu, rfl⟩ := Option.map_eq_some_iff.1 h
      simp [ih hu]

@[simp] theorem depth_assign (s : Scopes) (name : String) (value : Int64) :
    (s.assign name value).depth = s.depth := by
  unfold assign
  split
  · rfl
  · split
    · next h => simp [depth, length_of_update? h]
    · rfl

end Scopes

end TeachLang
