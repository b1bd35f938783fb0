import TeachLang.Proofs.Alike
import TeachLang.Proofs.Built

/-!
# How programs are laid out

A program is laid out by a few steps that are open to everyone. So a relation between changes of
trees relates the layouts of programs that are alike, if it relates these steps and what they make
up. In particular what holds of all trees that are built holds of those that come from a program.
-/

namespace TeachLang

open TeachLang.Tree

namespace Build

/-- Equal steps are related, or such as differ in related spans, and so is what they make up. -/
structure Congruence (R : Span → Span → Prop) (Q : {α : Type} → Build α → Build α → Prop) :
    Prop where
  pure {α : Type} (a : α) : Q (pure a) (pure a)
  bind {α β : Type} {x x' : Build α} {f f' : α → Build β} (hx : Q x x') (hf : ∀ a, Q (f a) (f' a)) :
    Q (x >>= f) (x' >>= f')
  add (f : Form) : Q (add f) (add f)
  setSpan {s s' : Span} (h : R s s') (id : NodeId) : Q (setSpan id s) (setSpan id s')
  setRoot (id : NodeId) : Q (setRoot id) (setRoot id)

namespace Congruence

variable {R : Span → Span → Prop} {Q : {α : Type} → Build α → Build α → Prop}
  (hQ : Congruence R Q) {s s' : Span}
include hQ

theorem place (h : R s s') (f : Form) : Q (place s f) (place s' f) :=
  hQ.bind (hQ.add f) fun id => hQ.bind (hQ.setSpan h id) fun _ => hQ.pure id

theorem scope (h : R s s') {x x' : Build (List NodeId)} (hx : Q x x') :
    Q (scope s x) (scope s' x') :=
  hQ.bind hx fun _ => hQ.place h _

theorem optional {α : Type} {A : α → α → Prop} (layout : α → Build NodeId)
    (hlayout : ∀ {a a'}, A a a' → Q (layout a) (layout a')) {o o' : Option α}
    (ho : Option.Rel A o o') : Q (optional layout o) (optional layout o') := by
  cases ho with
  | none => exact hQ.pure none
  | some ha => exact hQ.bind (hlayout ha) fun id => hQ.pure (some id)

theorem expr {e e' : Expr} (he : e.Alike R e') : Q e.layout e'.layout := by
  induction he with
  | literal v h => exact hQ.place h _
  | reference x h => exact hQ.place h _
  | unary op h _ ih => exact hQ.bind ih fun _ => hQ.place h _
  | binary op h _ _ iha ihb => exact hQ.bind iha fun _ => hQ.bind ihb fun _ => hQ.place h _

theorem simple {a a' : Simple} (ha : a.Alike R a') : Q a.layout a'.layout := by
  cases ha with
  | assign x h hp he =>
    exact hQ.bind (hQ.place hp _) fun _ => hQ.bind (hQ.expr he) fun _ => hQ.place h _
  | input x h hp => exact hQ.bind (hQ.place hp _) fun _ => hQ.place h _
  | expr he => exact hQ.expr he

omit hQ

mutual

theorem stmt (hQ : Congruence R Q) {a a' : Stmt} : a.Alike R a' → Q a.layout a'.layout
  | .block h hss => hQ.scope h (stmts hQ hss)
  | .ifThen h hc ha =>
    hQ.bind (hQ.expr hc) fun _ => hQ.bind (stmt hQ ha) fun _ => hQ.place h _
  | .ifElse h hc ha hb =>
    hQ.bind (hQ.expr hc) fun _ => hQ.bind (stmt hQ ha) fun _ => hQ.bind (stmt hQ hb) fun _ =>
      hQ.place h _
  | .whileLoop h hc hp hss =>
    hQ.bind (hQ.expr hc) fun _ => hQ.bind (hQ.scope hp (stmts hQ hss)) fun _ => hQ.place h _
  | .forLoop h hi hc hu hp hss =>
    hQ.bind (hQ.optional Simple.layout hQ.simple hi) fun _ => hQ.bind (hQ.expr hc) fun _ =>
      hQ.bind (hQ.optional Simple.layout hQ.simple hu) fun _ =>
        hQ.bind (hQ.scope hp (stmts hQ hss)) fun _ => hQ.place h _
  | .print h he => hQ.bind (hQ.expr he) fun _ => hQ.place h _
  | .declare _ h hi => hQ.bind (hQ.optional Expr.layout hQ.expr hi) fun _ => hQ.place h _
  | .simple h ha => hQ.bind (hQ.simple ha) fun _ => hQ.place h _

theorem stmts (hQ : Congruence R Q) {ss ss' : List Stmt} :
    Stmt.AllAlike R ss ss' → Q (Stmt.layoutAll ss) (Stmt.layoutAll ss')
  | .nil => hQ.pure []
  | .cons hs hss => hQ.bind (stmt hQ hs) fun id => hQ.bind (stmts hQ hss) fun ids =>
      hQ.pure (id :: ids)

end

theorem program (hQ : Congruence R Q) {p p' : Program} (h : p.Alike R p') :
    Q p.layout p'.layout :=
  hQ.bind (hQ.scope h.span (hQ.stmts h.statements)) fun id => hQ.setRoot id

end Congruence

def Builds {α : Type} (x : Build α) : Prop := ∀ t, Built t → Built (x.run t).2

theorem Builds.bind {α β : Type} {x : Build α} {f : α → Build β} (hx : Builds x)
    (hf : ∀ a, Builds (f a)) : Builds (x >>= f) := by
  intro t ht
  have hbuilt := hx t ht
  rw [run_bind]
  rcases hr : x.run t with ⟨e | a, u⟩ <;> rw [hr] at hbuilt
  · exact hbuilt
  · exact hf a u hbuilt

theorem congruence_builds : Congruence Eq fun x _ => Builds x where
  pure _ _ ht := ht
  bind := Builds.bind
  add f _ ht := ht.operate (.add f) nofun
  setSpan _ id _ ht := ht.operate (.setSpan id _) nofun
  setRoot id _ ht := ht.operate (.setRoot id) nofun

end Build

theorem Program.built_of_run_layout {p : Program} {t : Tree}
    (h : p.layout.run {} = (.ok (), t)) : Built t := by
  have hself : p.Alike Eq p := ⟨rfl, Stmt.allAlike_self (fun _ => rfl) p.statements⟩
  have hbuilt : Built (p.layout.run {}).2 := Build.congruence_builds.program hself {} .empty
  rwa [h] at hbuilt

/-- A parsed tree is built, and says what the one program says that its tokens spell. -/
theorem Tree.ofTokens_stands {tokens : List Located} {t : Tree} (h : ofTokens tokens = .ok t) :
    ∃ p : Program, p.Spelled true tokens ∧ p.StandsIn t ∧ Built t := by
  obtain ⟨p, hp, hlayout⟩ := ofTokens_eq_ok.1 h
  obtain ⟨u, hrun, hstands⟩ := p.run_layout
  cases hlayout.symm.trans hrun
  exact ⟨p, hp, hstands, Program.built_of_run_layout hrun⟩

end TeachLang
