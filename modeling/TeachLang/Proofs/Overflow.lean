import TeachLang.Proofs.BrokenOff
import TeachLang.Proofs.ScopeNames
import TeachLang.Proofs.Sequel

/-!
# A sink that fills up

A sink with room for so many bytes takes what an unlimited one does, until a text does not fit. Then
it takes the bytes of that text that fit, and the run fails and does nothing more. For this it makes
no difference whether the run would ever have ended: it is the bytes in front that count, and they
are written at some time.
-/

namespace TeachLang

namespace Sink

def limited (n : Nat) (s : Sink) : Sink := { s with capacity := some n }

def truncated (n : Nat) (s : Sink) : Sink :=
  { s.limited n with written := s.written.extract 0 n }

theorem extract_of_size_le {bytes : ByteArray} {n : Nat} (h : bytes.size ≤ n) :
    bytes.extract 0 n = bytes := by
  have hall : bytes.extract 0 (max n bytes.size) = bytes := ByteArray.extract_zero_max_size
  rwa [Nat.max_eq_left h] at hall

theorem write_limited {s : Sink} {n : Nat} {text : String}
    (h : (s.written ++ text.toUTF8).size ≤ n) : (s.limited n).write text =
      (.ok (), { s.limited n with written := s.written ++ text.toUTF8 }) := by
  rw [ByteArray.size_append] at h
  have hfits : (s.limited n).fitting text.toUTF8.size = text.toUTF8.size := by
    simp only [fitting, limited]
    omega
  simp only [write, hfits, if_true, ByteArray.extract_zero_size]
  rfl

theorem write_overflow {s : Sink} {n : Nat} {text : String} (hs : s.written.size ≤ n)
    (h : n < (s.written ++ text.toUTF8).size) : (s.limited n).write text =
      (.error (.io "failed to write whole buffer"),
        truncated n { s with written := s.written ++ text.toUTF8 }) := by
  have hfits : (s.limited n).fitting text.toUTF8.size = n - s.written.size := by
    rw [ByteArray.size_append] at h
    simp only [fitting, limited]
    omega
  have hne : n - s.written.size ≠ text.toUTF8.size := by
    rw [ByteArray.size_append] at h
    omega
  have hextract : (s.written ++ text.toUTF8).extract 0 n =
      s.written ++ text.toUTF8.extract 0 (n - s.written.size) := by
    rw [ByteArray.extract_append, extract_of_size_le hs, Nat.zero_sub]
  simp only [write, hfits, if_neg hne, truncated, hextract]
  rfl

end Sink

def exceeds (n : Nat) (bytes : ByteArray) : Bool := decide (n < bytes.size)

theorem exceeds_eq_true {n : Nat} {bytes : ByteArray} : exceeds n bytes = true ↔ n < bytes.size :=
  decide_eq_true_iff

theorem exceeds_eq_false {n : Nat} {bytes : ByteArray} :
    exceeds n bytes = false ↔ bytes.size ≤ n := by
  rw [exceeds, decide_eq_false_iff_not, Nat.not_lt]

def Machine.limited (n : Nat) (m : Machine) : Machine := { m with sink := m.sink.limited n }

def Machine.truncated (n : Nat) (m : Machine) : Machine := { m with sink := m.sink.truncated n }

namespace Eval

variable {α α' β β' : Type} {A : α → α' → Prop} {B : β → β' → Prop} {q : ByteArray → Bool}
  {n : Nat} {m m' : Machine}

/-- The evaluations have the same answer, if the first one has written no more than `n` bytes.
Otherwise the second one failed when that happened, with its sink full. -/
inductive Truncated (n : Nat) (A : α → α' → Prop) :
    Option (Except Error α × Machine) → Option (Except Error α' × Machine) → Prop
  | unbounded : Truncated n A none none
  | kept {r : Except Error α} {r' : Except Error α'} {m : Machine} (hr : Ends Eq A r r')
      (hfree : m.sink.capacity = none) (hn : m.sink.written.size ≤ n) :
      Truncated n A (some (r, m)) (some (r', m.limited n))
  | full (e : Error) {m : Machine} (hn : n < m.sink.written.size) : Truncated n A
      (some (.error e, m)) (some (.error (.io "failed to write whole buffer"), m.truncated n))

def Truncates (n : Nat) (A : α → α' → Prop) (x : Eval α) (x' : Eval α') : Prop :=
  ∀ m, m.sink.capacity = none → m.sink.written.size ≤ n → Truncated n A (x m) (x' (m.limited n))

theorem truncates_of_confined {x : Eval α} (hx : Confined x) : Truncates n Eq x x := by
  intro m hfree hn
  rw [Machine.limited, hx m m.reader (m.sink.limited n)]
  cases hr : x m with
  | none => exact .unbounded
  | some o =>
    obtain ⟨r, m₁⟩ := o
    have hsink := hx.sink_eq hr
    have hlimited : { m₁ with reader := m.reader, sink := m.sink.limited n } = m₁.limited n := by
      rw [Machine.limited, hsink, hx.reader_eq hr]
    rw [Option.map_some, hlimited]
    refine .kept (ends_eq_iff.2 rfl) ?_ ?_
    · rw [hsink, hfree]
    · rwa [hsink]

theorem truncates_throw (e : Error) :
    Truncates n A (MonadExcept.throw e) (MonadExcept.throw e) :=
  fun _ hfree hn => .kept (.error rfl) hfree hn

theorem Truncates.bind {x : Eval α} {x' : Eval α'} {f : α → Eval β} {f' : α' → Eval β'}
    (hx : Truncates n A x x') (hf : ∀ a a', A a a' → Truncates n B (f a) (f' a')) :
    Truncates n B (x >>= f) (x' >>= f') := by
  intro m hfree hn
  have htruncated := hx m hfree hn
  rw [bind_apply, bind_apply]
  generalize x m = o at htruncated ⊢
  generalize x' (m.limited n) = o' at htruncated ⊢
  cases htruncated with
  | unbounded => exact .unbounded
  | kept hr hfree hn =>
    cases hr with
    | ok h => exact hf _ _ h _ hfree hn
    | error h =>
      subst h
      exact .kept (.error rfl) hfree hn
  | full e hn => exact .full e hn

theorem Truncates.inScope {x : Eval α} {x' : Eval α'} (hx : Truncates n A x x') :
    Truncates n A (inScope x) (inScope x') := by
  intro m hfree hn
  have htruncated := hx { m with scopes := m.scopes.push } hfree hn
  have hpush : ({ m with scopes := m.scopes.push } : Machine).limited n =
      { m.limited n with scopes := (m.limited n).scopes.push } := rfl
  rw [hpush] at htruncated
  unfold Eval.inScope
  generalize x { m with scopes := m.scopes.push } = o at htruncated ⊢
  generalize x' _ = o' at htruncated ⊢
  cases htruncated with
  | unbounded => exact .unbounded
  | kept hr hfree hn => exact .kept hr hfree hn
  | full e hn => exact .full e hn

theorem congruence_truncates (n : Nat) : StreamCongruence (Truncates n) where
  pure h := fun _ hfree hn => .kept (.ok h) hfree hn
  bind := Truncates.bind
  unbounded := fun _ _ _ => .unbounded
  throw := truncates_throw
  confined := truncates_of_confined
  takeInteger := by
    intro m hfree hn
    rw [takeInteger_apply, takeInteger_apply]
    exact .kept (ends_eq_iff.2 rfl) hfree hn
  inScope := Truncates.inScope

theorem truncates_breakIf :
    Truncates n Eq (breakIf fun bytes => q bytes || exceeds n bytes) (breakIf q) := by
  intro m hfree hn
  rw [breakIf_or (exceeds_eq_false.2 hn)]
  cases hq : q m.sink.written with
  | true =>
    rw [breakIf_of_true hq, breakIf_of_true (m := m.limited n) hq]
    exact .kept (.error rfl) hfree hn
  | false =>
    rw [breakIf_of_false hq, breakIf_of_false (m := m.limited n) hq]
    exact .kept (.ok rfl) hfree hn

/-- A text that does not fit is what leaves more than `n` bytes. -/
theorem truncates_write (text : String) :
    Truncates n Eq (write text >>= fun _ => breakIf fun bytes => q bytes || exceeds n bytes)
      (write text >>= fun _ => breakIf q) := by
  intro m hfree hn
  rw [bind_apply, bind_apply, write_apply, write_apply, Sink.write_unlimited hfree]
  have hsink : (m.limited n).sink = m.sink.limited n := rfl
  by_cases hfits : (m.sink.written ++ text.toUTF8).size ≤ n
  · rw [hsink, Sink.write_limited hfits]
    exact truncates_breakIf { m with sink := { m.sink with written := _ } } hfree hfits
  · rw [Nat.not_le] at hfits
    rw [hsink, Sink.write_overflow hn hfits]
    dsimp only
    rw [breakIf_of_true (Bool.or_eq_true_iff.2 (.inr (exceeds_eq_true.2 hfits)))]
    exact .full (.io "broken off") hfits

theorem truncates_execUntil (t : Tree) (bound : Nat) (k : NodeId) :
    Truncates n Eq (t.execUntil (fun bytes => q bytes || exceeds n bytes) bound k)
      (t.execUntil q bound k) :=
  (congruence_truncates n).execUntil truncates_write truncates_breakIf t bound k

/-! ### Evaluations on both sinks -/

variable {t : Tree} {bound : Nat} {k : NodeId} {r : Except Error Unit}

/-- As long as no more than `n` bytes are written, a limit of `n` bytes makes no difference. -/
theorem execUntil_limited (hfree : m.sink.capacity = none)
    (h : t.execUntil q bound k m = some (r, m')) (hn : m'.sink.written.size ≤ n) :
    t.execUntil q bound k (m.limited n) = some (r, m'.limited n) := by
  have hm := (execUntil_precedes h).size_le.trans hn
  have hbroken := (breaksOff_execUntil (q := q) t bound k).2 m (exceeds_eq_false.2 hm)
  have htruncated := truncates_execUntil (q := q) t bound k m hfree hm
  rw [h] at hbroken
  generalize t.execUntil (fun bytes => q bytes || exceeds n bytes) bound k m = o
    at hbroken htruncated
  generalize t.execUntil q bound k (m.limited n) = o' at htruncated ⊢
  cases hbroken with
  | kept hr _ =>
    obtain rfl := ends_eq_iff.1 hr
    cases htruncated with
    | kept hr _ _ => rw [ends_eq_iff.1 hr]
    | full e hover => exact absurd hover (Nat.not_lt.2 hn)
  | stopped e hp hprecedes =>
    have hsize := (hprecedes r m' rfl).size_le
    have hover := exceeds_eq_true.1 hp
    omega

section

variable (hn : m.sink.written.size ≤ n)
include hn

theorem broken_exec (t : Tree) (bound : Nat) (k : NodeId) :
    Broken (exceeds n) Eq (t.exec bound k m) (t.execUntil (exceeds n) bound k m) := by
  have hbreaks := breaksOff_execUntil (p := exceeds n) (q := fun _ => false) t bound k
  rw [exec_eq_execUntil]
  simpa only [Bool.false_or] using hbreaks.2 m (exceeds_eq_false.2 hn)

/-- What has more than `n` bytes in the end had so at some time. -/
theorem exec_exceeding (h : t.exec bound k m = some (r, m')) (hover : n < m'.sink.written.size) :
    ∃ e m₁, t.execUntil (exceeds n) bound k m = some (.error e, m₁) ∧
      exceeds n m₁.sink.written = true ∧ m₁.sink.Precedes m'.sink := by
  have hbroken := broken_exec hn t bound k
  rw [h] at hbroken
  generalize t.execUntil (exceeds n) bound k m = o at hbroken ⊢
  cases hbroken with
  | kept _ hp => exact absurd hover (Nat.not_lt.2 (exceeds_eq_false.1 hp))
  | stopped e hp hprecedes => exact ⟨e, _, rfl, hp, hprecedes r m' rfl⟩

variable (hfree : m.sink.capacity = none)
include hfree

theorem truncated_exec (t : Tree) (bound : Nat) (k : NodeId) :
    Truncated n Eq (t.execUntil (exceeds n) bound k m) (t.exec bound k (m.limited n)) := by
  have htruncates := truncates_execUntil (n := n) (q := fun _ => false) t bound k
  rw [exec_eq_execUntil]
  simpa only [Bool.false_or] using htruncates m hfree hn

theorem exec_limited_exceeding (h : t.execUntil (exceeds n) bound k m = some (r, m'))
    (hover : exceeds n m'.sink.written = true) : t.exec bound k (m.limited n) =
      some (.error (.io "failed to write whole buffer"), m'.truncated n) := by
  have htruncated := truncated_exec hn hfree t bound k
  rw [h] at htruncated
  generalize t.exec bound k (m.limited n) = o at htruncated ⊢
  cases htruncated with
  | kept _ _ hle => exact absurd hle (Nat.not_le.2 (exceeds_eq_true.1 hover))
  | full e _ => rfl

/-- What ends on a limited sink ends, or writes too much. -/
theorem exec_of_limited {m₂ : Machine} (h : t.exec bound k (m.limited n) = some (r, m₂)) :
    (∃ m', t.exec bound k m = some (r, m')) ∨ ∃ r' m', exceeds n m'.sink.written = true ∧
      t.execUntil (exceeds n) bound k m = some (r', m') := by
  have hbroken := broken_exec hn t bound k
  have htruncated := truncated_exec hn hfree t bound k
  rw [h] at htruncated
  generalize t.execUntil (exceeds n) bound k m = o at hbroken htruncated ⊢
  cases htruncated with
  | full e hover => exact .inr ⟨_, _, exceeds_eq_true.2 hover, rfl⟩
  | kept hr _ _ =>
    obtain rfl := ends_eq_iff.1 hr
    generalize t.exec bound k m = o' at hbroken ⊢
    cases hbroken with
    | kept hr _ =>
      obtain rfl := ends_eq_iff.1 hr
      exact .inl ⟨_, rfl⟩
    | stopped e hp _ => exact .inr ⟨_, _, hp, rfl⟩

end

end Eval

namespace Tree

open Eval

/-- Where flushes succeed, a run ends as its root does. -/
theorem ends_iff_exec {t : Tree} {m m' : Machine} {r : Except Error Unit}
    (hflush : m.sink.flush = .ok ()) : t.Ends m r m' ↔ (t.root = none ∧ r = .ok () ∧ m' = m) ∨
      ∃ root bound, t.root = some root ∧ t.exec bound root m = some (r, m') := by
  have hexec : ∀ bound root, ((t.exec bound root m).map fun p =>
      (p.2.sink.flush.bind fun _ => p.1, p.2)) = t.exec bound root m := by
    intro bound root
    cases h : t.exec bound root m with
    | none => rfl
    | some p =>
      obtain ⟨r₁, m₁⟩ := p
      have hkept : m₁.sink.flush = .ok () :=
        (maintained_flush.exec t bound root m r₁ m₁ h).trans hflush
      simp only [Option.map_some, hkept]
      rfl
  unfold Ends
  simp only [run_apply]
  cases t.root with
  | none => simp [eq_comm]
  | some root =>
    simp only [hexec]
    simp

/-- On a sink that is limited to `n` bytes a run does what it does on one that takes everything, as
long as it writes no more than `n` bytes in all. If it writes more, whether it would ever end or
not, then on the limited sink it ends there with an error. That sink has the first `n` bytes of what
the other one gets, and no scope is left open. -/
theorem run_limited (t : Tree) {m : Machine} {n : Nat} (hfree : m.sink.capacity = none)
    (hflush : m.sink.flushError = none) (hn : m.sink.written.size ≤ n) :
    (∀ m', m'.sink.written.size ≤ n →
      (∀ r, t.Ends m r m' → t.Ends (m.limited n) r (m'.limited n)) ∧
        ∀ p, t.ComesTo p m m' → t.ComesTo p (m.limited n) (m'.limited n)) ∧
    (∀ m', n < m'.sink.written.size → (∃ r, t.Ends m r m') ∨ t.ComesTo (exceeds n) m m' →
      ∃ m₁ m₂, t.ComesTo (exceeds n) m m₁ ∧ m₂ = m₁.truncated n ∧
        t.Ends (m.limited n) (.error (.io "failed to write whole buffer")) m₂ ∧
        m₂.sink.written = m'.sink.written.extract 0 n ∧ m₂.scopes.depth = m.scopes.depth) ∧
    ((∀ r m', ¬ t.Ends m r m') → (∀ m', ¬ t.ComesTo (exceeds n) m m') →
      ∀ r m₂, ¬ t.Ends (m.limited n) r m₂) := by
  have hflush₁ : m.sink.flush = .ok () := by rw [Sink.flush, hflush]
  have hflush₂ : (m.limited n).sink.flush = .ok () := hflush₁
  have hcomesTo : ∀ m₁, t.ComesTo (exceeds n) m m₁ →
      t.Ends (m.limited n) (.error (.io "failed to write whole buffer")) (m₁.truncated n) ∧
        (m₁.truncated n).scopes.depth = m.scopes.depth := by
    rintro m₁ ⟨hover, root, bound, r, hroot, h⟩
    have h₂ := exec_limited_exceeding hn hfree h hover
    exact ⟨(ends_iff_exec hflush₂).2 (.inr ⟨root, bound, hroot, h₂⟩),
      (maintained_names.exec t bound root _ _ _ h₂).depth_eq⟩
  refine ⟨fun m' hn' => ⟨fun r h => ?_, ?_⟩, ?_, fun hend hover r m₂ h => ?_⟩
  · obtain ⟨hroot, rfl, rfl⟩ | ⟨root, bound, hroot, h⟩ := (ends_iff_exec hflush₁).1 h
    · exact (ends_iff_exec hflush₂).2 (.inl ⟨hroot, rfl, rfl⟩)
    · rw [exec_eq_execUntil] at h
      have h₂ := execUntil_limited hfree h hn'
      rw [← exec_eq_execUntil] at h₂
      exact (ends_iff_exec hflush₂).2 (.inr ⟨root, bound, hroot, h₂⟩)
  · rintro p ⟨hp, root, bound, r, hroot, h⟩
    exact ⟨hp, root, bound, r, hroot, execUntil_limited hfree h hn'⟩
  · rintro m' hover (⟨r, h⟩ | h)
    · obtain ⟨-, -, rfl⟩ | ⟨root, bound, hroot, h⟩ := (ends_iff_exec hflush₁).1 h
      · exact absurd hover (Nat.not_lt.2 hn)
      · obtain ⟨e, m₁, h₁, hover₁, hprecedes⟩ := exec_exceeding hn h hover
        have hcomes : t.ComesTo (exceeds n) m m₁ := ⟨hover₁, root, bound, _, hroot, h₁⟩
        obtain ⟨hends, hdepth⟩ := hcomesTo m₁ hcomes
        have hwritten := (hprecedes.extract_eq (exceeds_eq_true.1 hover₁).le).symm
        exact ⟨m₁, _, hcomes, rfl, hends, hwritten, hdepth⟩
    · obtain ⟨hends, hdepth⟩ := hcomesTo m' h
      exact ⟨m', _, h, rfl, hends, rfl, hdepth⟩
  · obtain ⟨hroot, rfl, rfl⟩ | ⟨root, bound, hroot, h⟩ := (ends_iff_exec hflush₂).1 h
    · exact hend _ m ((ends_iff_exec hflush₁).2 (.inl ⟨hroot, rfl, rfl⟩))
    · obtain ⟨m', h⟩ | ⟨r', m', hp, h⟩ := exec_of_limited hn hfree h
      · exact hend r m' ((ends_iff_exec hflush₁).2 (.inr ⟨root, bound, hroot, h⟩))
      · exact hover m' ⟨hp, root, bound, r', hroot, h⟩

/-- A loop without end prints `77` over and over, in a scope. In the second line there is room for
one digit more. -/
theorem run_limited_of_endless :
    let t := [Operation.add (.literal 1), .add (.literal 77), .add (.print (some 1)),
      .add (.scope [2]), .add (.whileLoop (some 0) (some 3)), .add (.scope [4]), .add (.scope [5]),
      .setRoot 6].foldl Operation.apply {}
    let m : Machine := {}
    let m' : Machine := { m with
      register := 77
      sink := ⟨"77\n77\n".toUTF8, none, none⟩ }
    m.sink.capacity = none ∧ m.sink.flushError = none ∧ m.sink.written.size ≤ 4 ∧
      4 < m'.sink.written.size ∧ t.ComesTo (exceeds 4) m m' ∧
      ∃ m₂, t.Ends (m.limited 4) (.error (.io "failed to write whole buffer")) m₂ ∧
        m₂.sink.written = "77\n7".toUTF8 ∧ m₂.scopes.depth = 1 := by
  intro t m m'
  have hn : m.sink.written.size ≤ 4 := by decide
  have hover : 4 < m'.sink.written.size := by decide
  have hcomes : t.ComesTo (exceeds 4) m m' :=
    ⟨by decide, 6, 7, .error (.io "broken off"), rfl, by decide⟩
  obtain ⟨_, hexceeded, _⟩ := run_limited t rfl rfl hn
  obtain ⟨_, m₂, _, _, hends, hwritten, hdepth⟩ := hexceeded m' hover (.inr hcomes)
  have hfirst : m'.sink.written.extract 0 4 = "77\n7".toUTF8 := by decide
  exact ⟨rfl, rfl, hn, hover, hcomes, m₂, hends, hwritten.trans hfirst, hdepth⟩

end Tree

end TeachLang
