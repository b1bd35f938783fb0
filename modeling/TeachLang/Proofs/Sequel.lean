import TeachLang.Proofs.Counterpart
import TeachLang.Proofs.EvalComplete
import TeachLang.Proofs.JoinedTexts
import TeachLang.Proofs.Maintained
import TeachLang.Proofs.Parsed

/-!
# Programs one behind the other

A text that consists of two programs, each with its own lines, is a program. To run it is to run the
first one and, unless that fails, the second one on the machine that the first one leaves.
-/

namespace TeachLang

def Error.unplaced : Error → Error
  | .runtime ⟨fault, _⟩ => .runtime ⟨fault, none⟩
  | e => e

/-- The same error, a fault some lines further down. The errors of the streams have no place. -/
inductive Error.Lower (n : Nat) : Error → Error → Prop
  | io (text : String) : Lower n (.io text) (.io text)
  | fault (f : Fault) {s s' : Span} (h : s.Lower n s') :
      Lower n (.runtime ⟨f, some s⟩) (.runtime ⟨f, some s'⟩)

/-- The same error but for its place, which is some lines further down if the text is short. -/
structure Error.Follows (short : Prop) (n : Nat) (e e' : Error) : Prop where
  unplaced_eq : e'.unplaced = e.unplaced
  lower : short → e.Lower n e'

namespace Tree

def Ends (t : Tree) (m : Machine) (r : Except Error Unit) (m' : Machine) : Prop :=
  ∃ bound, t.run bound m = some (r, m')

def HasStatements (t : Tree) (ks : List NodeId) : Prop :=
  ∃ root span, t.root = some root ∧ t.Bears root span (.scope ks)

end Tree

namespace Eval

variable {α : Type} {m m' : Machine}

/-! ### Machines that are the same -/

/-- On the same machine the effects are the same. What may differ is the place of a fault. -/
theorem mirror_self {R : Span → Span → Prop} {E : Error → Error → Prop}
    (hio : ∀ text, E (.io text) (.io text))
    (hfault : ∀ {s s'}, R s s' → ∀ f, E (.runtime (.located f s)) (.runtime (.located f s'))) :
    Mirror id R E Eq where
  fault h f := by
    rw [Fault.rename_id]
    exact hfault h f
  register h := by rw [h]
  setRegister h v := by rw [h]
  get? h x := by rw [h, id]
  assign h x v := by rw [h, id]
  declaredInner h x := by rw [h, id]
  declare h _ _ v := by rw [h, id]
  push h := by rw [h]
  pop h := by rw [h]
  takeInteger := by
    rintro m _ rfl
    exact ⟨.self hio _ m.reader.takeInteger_error, rfl⟩
  write := by
    rintro m _ rfl text
    exact ⟨.self hio _ m.sink.write_error, rfl⟩

/-- No evaluation has an influence on whether a flush fails. -/
theorem maintained_flush : Maintained fun m m' => m'.sink.flush = m.sink.flush where
  refl _ := rfl
  trans h h' := h'.trans h
  register _ _ := rfl
  assign _ _ _ := rfl
  declare _ _ _ _ _ := rfl
  reader _ := rfl
  sink m text := by
    simp only [Sink.write]
    split <;> rfl
  scope h := h

end Eval

namespace Tree

open Eval

variable {t u w : Tree} {m m' : Machine} {ks : List NodeId}

/-- A run whose flush succeeds runs the statements of the root. -/
theorem run_of_hasStatements (hf : Forest t) (h : t.HasStatements ks)
    (hflush : m.sink.flush = .ok ()) (bound : Nat) :
    t.run (bound + 1) m = ks.forM (t.exec bound) m := by
  obtain ⟨root, span, hroot, hb⟩ := h
  have hexec : t.exec (bound + 1) root = ks.forM (t.exec bound) := by
    rw [exec_of_bears hb, (hf.root_parentless root hroot).2]
    rfl
  rw [run, hroot]
  simp only [hexec]
  rw [bind_apply]
  cases hrun : ks.forM (t.exec bound) m with
  | none => simp only [outcome, hrun]
  | some p =>
    obtain ⟨r, m₁⟩ := p
    have hm : m₁.sink.flush = m.sink.flush :=
      maintained_flush.forM (maintained_flush.exec t bound) ks m r m₁ hrun
    simp only [outcome, hrun, bind_apply, flush, ofState, hm, hflush]
    cases r <;> rfl

theorem outcome_eq_some {α : Type} {x : Eval α} {r : Except Error (Except Error α)} :
    outcome x m = some (r, m') ↔ ∃ result, r = .ok result ∧ x m = some (result, m') := by
  unfold outcome
  rcases x m with _ | ⟨result, m₁⟩
  · simp
  · simp [eq_comm]

/-- A run that ends with some bound ends so with every greater one. -/
theorem Ends.settles (hf : Forest t) {r : Except Error Unit} (h : t.Ends m r m') :
    Settles t.run m r m' := by
  obtain ⟨bound, h⟩ := h
  unfold run at h
  cases hroot : t.root with
  | none =>
    rw [hroot] at h
    refine settles_of_eq fun bound => ?_
    rw [run, hroot]
    exact h
  | some root =>
    rw [hroot] at h
    rcases bind_eq_some.1 h with ⟨e, he, _⟩ | ⟨result, m₁, hresult, h⟩
    · obtain ⟨_, hok, _⟩ := outcome_eq_some.1 he
      cases hok
    · obtain ⟨_, hok, hexec⟩ := outcome_eq_some.1 hresult
      cases hok
      have heval := (exec_iff hf (hf.root_parentless root hroot).1).1 ⟨bound, hexec⟩
      obtain ⟨least, hreaches⟩ := heval.reaches
      refine ⟨least, fun bound hbound => ?_⟩
      have houtcome := outcome_eq_some.2 ⟨result, rfl, hreaches bound hbound⟩
      rw [run, hroot]
      exact bind_eq_some.2 (.inr ⟨result, m₁, houtcome, h⟩)

structure Replays (t w : Tree) (E : Error → Error → Prop) (ks ks' : List NodeId) : Prop where
  same : List.Forall₂ (fun k k' => t.same? k w k' = some true) ks ks'
  agree (bound : Nat) : Agree Eq E Eq (ks.forM (t.exec bound)) (ks'.forM (w.exec bound))

theorem Replays.forM_eq_some {E : Error → Error → Prop} {ks' : List NodeId}
    (h : Replays t w E ks ks') {bound : Nat} {r : Except Error Unit}
    (hks : ks.forM (t.exec bound) m = some (r, m')) :
    ∃ r', ks'.forM (w.exec bound) m = some (r', m') ∧ Eval.Ends E Eq r r' := by
  have hends := h.agree bound m m rfl
  rw [hks] at hends
  generalize ks'.forM (w.exec bound) m = p' at hends ⊢
  cases hends with
  | @some _ p' h =>
    obtain ⟨r', m₁⟩ := p'
    obtain ⟨hr, rfl⟩ := h
    exact ⟨r', rfl, hr⟩

theorem Replays.exists_forM {E : Error → Error → Prop} {ks' : List NodeId}
    (h : Replays t w E ks ks') {bound : Nat} {r' : Except Error Unit}
    (hks' : ks'.forM (w.exec bound) m = some (r', m')) :
    ∃ r, ks.forM (t.exec bound) m = some (r, m') ∧ Eval.Ends E Eq r r' := by
  have hends := h.agree bound m m rfl
  rw [hks'] at hends
  generalize ks.forM (t.exec bound) m = p at hends ⊢
  cases hends with
  | @some p _ h =>
    obtain ⟨r, m₁⟩ := p
    obtain ⟨hr, rfl⟩ := h
    exact ⟨r, rfl, hr⟩

theorem HasStatements.parent?_isNone (h : t.HasStatements ks) (hf : Forest t) {k : NodeId}
    (hk : k ∈ ks) : (t.parent? k).isNone = false := by
  obtain ⟨root, span, _, n, hn, hform, _⟩ := h
  rw [hf.parent?_of_mem hn (by simpa [hform, Form.children, Form.roles] using hk)]
  rfl

theorem replays_of_alike {R : Span → Span → Prop} {E : Error → Error → Prop}
    (hio : ∀ text, E (.io text) (.io text))
    (hfault : ∀ {s s'}, R s s' → ∀ f, E (.runtime (.located f s)) (.runtime (.located f s')))
    (ht : Forest t) (hw : Forest w) {ss ss' : List Stmt} (hss : Stmt.AllAlike R ss ss')
    {ks ks' ls : List NodeId} (h : Stmt.AllStandAt t ss ks) (h' : Stmt.AllStandAt w ss' ks')
    (hks : t.HasStatements ks) (hls : w.HasStatements ls) (hsub : ∀ k ∈ ks', k ∈ ls) :
    Replays t w E ks ks' := by
  have hsim := simulates_partner (R := R) ht hw
  have hpartner : List.Forall₂ (Partner t w R) ks ks' := by
    refine forall₂_imp_of_mem (hss.counterparts h h') fun k hk k' hk' hcounterpart => ?_
    refine ⟨hcounterpart, ?_⟩
    rw [hls.parent?_isNone hw (hsub k' hk'), hks.parent?_isNone ht hk]
  have hmirror : Mirror id R E Eq := mirror_self hio hfault
  exact ⟨hpartner.imp fun k k' hk => hsim.same? ht hk,
    fun bound => hmirror.congruence.forM (agree_exec hmirror hsim bound) hpartner⟩

theorem not_run_zero (h : t.HasStatements ks) : t.run 0 m = none := by
  obtain ⟨root, span, hroot, _⟩ := h
  rw [run, hroot]
  rfl

/-- From this machine the third tree runs as the first one does and, if that succeeds, as the second
one does then, with related errors. -/
structure Sequel (E : Error → Error → Prop) (t u w : Tree) (m : Machine) : Prop where
  fails {e : Error} {m' : Machine} (h : t.Ends m (.error e) m') : w.Ends m (.error e) m'
  goesOn {m₁ m' : Machine} {r : Except Error Unit} (h : t.Ends m (.ok ()) m₁)
    (h' : u.Ends m₁ r m') : ∃ r', w.Ends m r' m' ∧ Eval.Ends E Eq r r'
  ends_or {m' : Machine} {r' : Except Error Unit} (h : w.Ends m r' m') :
    (∃ e, t.Ends m (.error e) m' ∧ r' = .error e) ∨
      ∃ m₁ r, t.Ends m (.ok ()) m₁ ∧ u.Ends m₁ r m' ∧ Eval.Ends E Eq r r'

structure Joins (t u w : Tree) (E : Error → Error → Prop) (ks ls ks' ls' : List NodeId) : Prop where
  first : t.HasStatements ks
  second : u.HasStatements ls
  all : w.HasStatements (ks' ++ ls')
  replaysFirst : Replays t w Eq ks ks'
  replaysSecond : Replays u w E ls ls'

namespace Joins

variable {E : Error → Error → Prop} {ls ks' ls' : List NodeId} {r : Except Error Unit}
  (h : Joins t u w E ks ls ks' ls')
include h

theorem run_succ (hw : Forest w) (hflush : m.sink.flush = .ok ()) (bound : Nat) :
    w.run (bound + 1) m = (ks'.forM (w.exec bound) >>= fun _ => ls'.forM (w.exec bound)) m := by
  rw [run_of_hasStatements hw h.all hflush]
  simp only [List.forM_eq_forM, List.forM_append]

theorem first_iff {bound : Nat} :
    ks'.forM (w.exec bound) m = some (r, m') ↔ ks.forM (t.exec bound) m = some (r, m') := by
  constructor
  · intro hks'
    obtain ⟨_, hks, hr⟩ := h.replaysFirst.exists_forM hks'
    rwa [← ends_eq_iff.1 hr]
  · intro hks
    obtain ⟨_, hks', hr⟩ := h.replaysFirst.forM_eq_some hks
    rwa [ends_eq_iff.1 hr]

theorem sequel (ht : Forest t) (hu : Forest u) (hw : Forest w) (hflush : m.sink.flush = .ok ()) :
    Sequel E t u w m := by
  have hflush' : ∀ {bound : Nat} {r : Except Error Unit} {m₁ : Machine},
      ks.forM (t.exec bound) m = some (r, m₁) → m₁.sink.flush = .ok () := fun hks =>
    (maintained_flush.forM (maintained_flush.exec t _) ks m _ _ hks).trans hflush
  constructor
  case fails =>
    intro e m' hend
    obtain ⟨least, hend⟩ := hend.settles ht
    have hfirst := hend (least + 1) (Nat.le_succ least)
    rw [run_of_hasStatements ht h.first hflush] at hfirst
    refine ⟨least + 1, ?_⟩
    rw [h.run_succ hw hflush]
    exact bind_eq_some.2 (.inl ⟨e, h.first_iff.2 hfirst, rfl⟩)
  case goesOn =>
    intro m₁ m' r hend hend'
    obtain ⟨least, hend⟩ := hend.settles ht
    obtain ⟨least', hend'⟩ := hend'.settles hu
    have hfirst := hend (max least least' + 1) (by omega)
    have hsecond := hend' (max least least' + 1) (by omega)
    rw [run_of_hasStatements ht h.first hflush] at hfirst
    rw [run_of_hasStatements hu h.second (hflush' hfirst)] at hsecond
    obtain ⟨r', hls', hr⟩ := h.replaysSecond.forM_eq_some hsecond
    refine ⟨r', ⟨max least least' + 1, ?_⟩, hr⟩
    rw [h.run_succ hw hflush]
    exact bind_eq_some.2 (.inr ⟨(), m₁, h.first_iff.2 hfirst, hls'⟩)
  case ends_or =>
    rintro m' r' ⟨_ | bound, hend⟩
    · cases (not_run_zero h.all).symm.trans hend
    rw [h.run_succ hw hflush] at hend
    rcases bind_eq_some.1 hend with ⟨e, hks', rfl⟩ | ⟨_, m₁, hks', hls'⟩
    · refine .inl ⟨e, ⟨bound + 1, ?_⟩, rfl⟩
      rw [run_of_hasStatements ht h.first hflush, h.first_iff.1 hks']
    · have hks := h.first_iff.1 hks'
      obtain ⟨r, hls, hr⟩ := h.replaysSecond.exists_forM hls'
      refine .inr ⟨m₁, r, ⟨bound + 1, ?_⟩, ⟨bound + 1, ?_⟩, hr⟩
      · rw [run_of_hasStatements ht h.first hflush, hks]
      · rw [run_of_hasStatements hu h.second (hflush' hks), hls]

end Joins

end Tree

open Eval

theorem Stmt.allStandAt_append {t : Tree} {ss ss' : List Stmt} {ids : List NodeId}
    (h : AllStandAt t (ss ++ ss') ids) :
    ∃ ks ls, ids = ks ++ ls ∧ AllStandAt t ss ks ∧ AllStandAt t ss' ls := by
  induction ss generalizing ids with
  | nil => exact ⟨[], ids, rfl, rfl, h⟩
  | cons s ss ih =>
    obtain ⟨k, hk, others, hothers, rfl⟩ := h
    obtain ⟨ks, ls, rfl, hks, hls⟩ := ih hothers
    exact ⟨k :: ks, ls, rfl, ⟨k, hk, ks, hks, rfl⟩, hls⟩

theorem Program.StandsIn.hasStatements {t : Tree} {p : Program} (h : p.StandsIn t) :
    ∃ ks, t.HasStatements ks ∧ Stmt.AllStandAt t p.statements ks := by
  obtain ⟨root, hroot, ⟨ks, hks, hb⟩, _⟩ := h
  exact ⟨ks, ⟨root, p.span, hroot, hb⟩, hks⟩

/-- The tokens of a text spell statements, which say what stands in its tree. -/
theorem Tree.ofSource_stands {source : String} {file : Option String} {t : Tree}
    (h : ofSource source file = .ok t) : ∃ tokens ss ks, scan source file = .ok tokens ∧
      Stmt.AllSpelled true tokens ss ∧ Stmt.AllStandAt t ss ks ∧ t.HasStatements ks ∧ Forest t := by
  obtain ⟨tokens, hscan, htokens⟩ := ofSource_eq_ok.1 h
  obtain ⟨p, hp, hstands, hbuilt⟩ := ofTokens_stands htokens
  obtain ⟨ks, hks, hstatements⟩ := hstands.hasStatements
  have hfree : EndFree tokens := by
    intro l hl
    obtain ⟨word, hword⟩ := spells_of_mem_scan hscan l hl
    exact hword.ne_endOfInput
  have hspelled := hp.statements
  rw [uptoEnd_of_endFree hfree] at hspelled
  exact ⟨tokens, p.statements, ks, hscan, hspelled, hstatements, hks, hbuilt.forest⟩

def Span.Below (n : Nat) (s s' : Span) : Prop := s.known = true ∧ s.Lower n s'

theorem Span.Below.through {n : Nat} {s s' e e' : Span} (h : Below n s s') (h' : Below n e e') :
    Below n (s.through e) (s'.through e') :=
  ⟨h.1, h.2.through h'.2⟩

theorem Span.Below.located {n : Nat} {s s' : Span} (h : Below n s s') (f : Fault) :
    Error.Lower n (.runtime (.located f s)) (.runtime (.located f s')) := by
  obtain ⟨hknown, hlower⟩ := h
  have hknown' : s'.known = true := by
    rw [Span.known, decide_eq_true_eq, UInt32.lt_iff_toNat_lt] at hknown ⊢
    rw [hlower.beginLine_eq]
    exact Nat.lt_of_lt_of_le hknown (Nat.le_add_right _ _)
  rw [RuntimeError.located_of_known hknown, RuntimeError.located_of_known hknown']
  exact .fault f hlower

theorem Error.follows_located {short : Prop} {n : Nat} {s s' : Span}
    (h : short → Span.Below n s s') (f : Fault) :
    Follows short n (.runtime (.located f s)) (.runtime (.located f s')) :=
  ⟨rfl, fun hshort => (h hshort).located f⟩

/-- Statements that a list spells make a tree. -/
theorem Stmt.AllSpelled.exists_tree {tokens : List Located} {ss : List Stmt}
    (h : AllSpelled true tokens ss) : ∃ w ks, Tree.ofTokens tokens = .ok w ∧
      AllStandAt w ss ks ∧ w.HasStatements ks ∧ w.Forest := by
  have hp : Program.Spelled true tokens ⟨_, ss⟩ :=
    ⟨(uptoEnd_of_endFree h.endFree).symm ▸ h, rfl⟩
  obtain ⟨w, hrun, _⟩ := Program.run_layout ⟨_, ss⟩
  have hw := Tree.ofTokens_eq_ok.2 ⟨_, hp, hrun⟩
  obtain ⟨q, hq, hstands, hbuilt⟩ := Tree.ofTokens_stands hw
  cases (parse_eq_ok_iff.2 hp).symm.trans (parse_eq_ok_iff.2 hq)
  obtain ⟨ks, hks, hall⟩ := hstands.hasStatements
  exact ⟨w, ks, hw, hall, hks, hbuilt.forest⟩

/-- Lists whose tokens are alike spell statements that are alike. -/
theorem Stmt.AllSpelled.exists_alike {R : Span → Span → Prop} {ts us : List Located}
    {ss : List Stmt} (h : AllSpelled true ts ss)
    (hR : ∀ s s' e e', R s s' → R e e' → R (s.through e) (s'.through e'))
    (hts : List.Forall₂ (Located.Alike R) ts us) :
    ∃ ss', AllSpelled true us ss' ∧ AllAlike R ss ss' := by
  cases hts with
  | cons hl hts => exact h.alike hR hl.span (.cons hl hts)
  | nil =>
    cases ss with
    | nil => exact ⟨[], .nil, .nil⟩
    | cons s ss =>
      generalize hnil : ([] : List Located) = ts at h
      cases h with
      | cons hs _ => exact absurd (List.append_eq_nil_iff.1 hnil.symm).1 hs.opens.ne_nil

/-- Two texts with a newline between them are one program, which runs as the first one does and, if
that succeeds, as the second one does then. A fault of the second one is as many lines further down
as end in front of it, unless the texts are so long that the counters wrap around. -/
theorem Tree.run_sequel {a b : String} {file : Option String} {t u : Tree}
    (ht : ofSource a file = .ok t) (hu : ofSource b file = .ok u) :
    ∃ w, ofSource (a ++ "\n" ++ b) file = .ok w ∧
      (∃ ks ls ks' ls', t.HasStatements ks ∧ u.HasStatements ls ∧ w.HasStatements (ks' ++ ls') ∧
        List.Forall₂ (fun k k' => t.same? k w k' = some true) ks ks' ∧
        List.Forall₂ (fun l l' => u.same? l w l' = some true) ls ls') ∧
      ∀ m, m.sink.flush = .ok () → Sequel (Error.Follows (a.length + b.length < UInt32.size - 1)
        (newlines a.toList + 1)) t u w m := by
  obtain ⟨ts, ss, ks, hscan, hss, hks, htop, hft⟩ := ofSource_stands ht
  obtain ⟨us, ss', ls, hscan', hss', hls, hutop, hfu⟩ := ofSource_stands hu
  have hlines : (a.length + b.length < UInt32.size - 1) →
      b.length + (newlines a.toList + 1) < UInt32.size := by
    have hle := newlines_le_length a.toList
    rw [String.length_toList] at hle
    omega
  generalize (a.length + b.length < UInt32.size - 1) = short at hlines ⊢
  generalize hn : newlines a.toList + 1 = n at hlines ⊢
  have hsame : List.Forall₂ (Located.Alike Eq) ts ts := List.forall₂_same.2 fun _ _ => ⟨rfl, rfl⟩
  have hdown : List.Forall₂ (Located.Alike fun s s' => short → Span.Below n s s') us
      (us.map (Located.down n)) := by
    refine List.forall₂_map_right_iff.2 (List.forall₂_same.2 fun l hl => ⟨rfl, fun hshort => ?_⟩)
    obtain ⟨hknown, hlower⟩ := span_of_mem_scan hscan' (hlines hshort) l hl
    exact ⟨decide_eq_true hknown, hlower⟩
  obtain ⟨s₁, hs₁, halike⟩ := hss.exists_alike (by rintro s _ e _ rfl rfl; rfl) hsame
  obtain ⟨s₂, hs₂, halike'⟩ := hss'.exists_alike
    (fun s s' e e' hs he hshort => (hs hshort).through (he hshort)) hdown
  obtain ⟨w, ids, hw, hids, hwtop, hfw⟩ := (hs₁.append hs₂).exists_tree
  obtain ⟨ks', ls', rfl, hks', hls'⟩ := Stmt.allStandAt_append hids
  have hsource : ofSource (a ++ "\n" ++ b) file = .ok w := by
    refine ofSource_eq_ok.2 ⟨_, ?_, hw⟩
    rw [scan_append_newline, hscan, hscan', hn]
    rfl
  have hjoins : Joins t u w (Error.Follows short n) ks ls ks' ls' := {
    first := htop
    second := hutop
    all := hwtop
    replaysFirst := replays_of_alike (fun _ => rfl) (by rintro s _ rfl f; rfl) hft hfw halike hks
      hks' htop hwtop fun k hk => List.mem_append_left _ hk
    replaysSecond := replays_of_alike (fun text => ⟨rfl, fun _ => .io text⟩) Error.follows_located
      hfu hfw halike' hls hls' hutop hwtop fun k hk => List.mem_append_right _ hk }
  exact ⟨w, hsource, ⟨ks, ls, ks', ls', htop, hutop, hwtop, hjoins.replaysFirst.same,
    hjoins.replaysSecond.same⟩, fun m hflush => hjoins.sequel hft hfu hfw hflush⟩

theorem Tree.run_sequel_of_second_fault :
    ∃ t u w, ofSource "x = 1;" none = .ok t ∧ ofSource "print y;" none = .ok u ∧
      ofSource ("x = 1;" ++ "\n" ++ "print y;") none = .ok w ∧
      ∃ m, w.Ends {} (.error (.runtime ⟨.undefinedVariable "y", some ⟨none, 2, 7, 2, 7⟩⟩)) m := by
  let t : Tree := ⟨#[⟨.reference "x", some 2, ⟨none, 1, 1, 1, 1⟩⟩,
    ⟨.literal 1, some 2, ⟨none, 1, 5, 1, 5⟩⟩,
    ⟨.assign (some 0) (some 1), some 3, ⟨none, 1, 1, 1, 5⟩⟩,
    ⟨.expression (some 2), some 4, ⟨none, 1, 1, 1, 6⟩⟩,
    ⟨.scope [3], none, ⟨none, 1, 1, 1, 6⟩⟩], some 4⟩
  let u : Tree := ⟨#[⟨.reference "y", some 1, ⟨none, 1, 7, 1, 7⟩⟩,
    ⟨.print (some 0), some 2, ⟨none, 1, 1, 1, 8⟩⟩, ⟨.scope [1], none, ⟨none, 1, 1, 1, 8⟩⟩], some 2⟩
  have ht : ofSource "x = 1;" none = .ok t := by decide +kernel
  have hu : ofSource "print y;" none = .ok u := by decide +kernel
  obtain ⟨w, hw, -, hrun⟩ := run_sequel ht hu
  obtain ⟨r', hends, hr⟩ := (hrun {} rfl).goesOn ⟨6, rfl⟩ ⟨6, rfl⟩
  cases hr with
  | error he =>
    cases he.lower (by decide) with
    | fault _ h =>
      have hspan : Span.Lower 1 ⟨none, 1, 7, 1, 7⟩ ⟨none, 2, 7, 2, 7⟩ := ⟨rfl, rfl, rfl, rfl, rfl⟩
      rw [h.unique hspan] at hends
      exact ⟨t, u, w, ht, hu, hw, _, hends⟩

/-- Behind so many lines the counter is at 0 again, and the fault has no place. -/
theorem Tree.run_sequel_unplaced :
    let a := String.ofList (List.replicate (UInt32.size - 2) '\n')
    ∃ t u w, ofSource a none = .ok t ∧ ofSource "print y;" none = .ok u ∧
      ofSource (a ++ "\n" ++ "print y;") none = .ok w ∧ t.Ends {} (.ok ()) {} ∧
      u.Ends {} (.error (.runtime ⟨.undefinedVariable "y", some ⟨none, 1, 7, 1, 7⟩⟩)) {} ∧
      w.Ends {} (.error (.runtime ⟨.undefinedVariable "y", none⟩)) {} := by
  intro a
  let t : Tree := ⟨#[⟨.scope [], none, {}⟩], some 0⟩
  let u (line : UInt32) : Tree := ⟨#[⟨.reference "y", some 1, ⟨none, line, 7, line, 7⟩⟩,
    ⟨.print (some 0), some 2, ⟨none, line, 1, line, 8⟩⟩,
    ⟨.scope [1], none, ⟨none, line, 1, line, 8⟩⟩], some 2⟩
  let ts (line : UInt32) : List Located := [⟨.printWord, ⟨none, line, 1, line, 5⟩⟩,
    ⟨.ident "y", ⟨none, line, 7, line, 7⟩⟩, ⟨.semicolon, ⟨none, line, 8, line, 8⟩⟩]
  have hscan : scan a none = .ok [] := by
    rw [← String.append_empty (s := a), scan_newlines_append]
    rfl
  have hscan' : scan "print y;" none = .ok (ts 1) := by decide +kernel
  have hlines : newlines a.toList + 1 = UInt32.size - 1 := by
    rw [String.toList_ofList]
    exact congrArg (· + 1) List.count_replicate_self
  refine ⟨t, u 1, u 0, ofSource_eq_ok.2 ⟨[], hscan, by decide +kernel⟩,
    ofSource_eq_ok.2 ⟨ts 1, hscan', by decide +kernel⟩,
    ofSource_eq_ok.2 ⟨ts 0, ?_, by decide +kernel⟩, ⟨4, rfl⟩, ⟨4, rfl⟩, ⟨4, rfl⟩⟩
  rw [scan_append_newline, hscan, hscan', hlines]
  rfl

end TeachLang
