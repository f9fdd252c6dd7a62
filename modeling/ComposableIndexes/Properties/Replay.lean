import ComposableIndexes.Abstract.Answers
import ComposableIndexes.Properties.Maintenance

namespace ComposableIndexes

inductive Write (T : Type) where
  | set (id : Id) (newValue : T)
  | delete (id : Id)

namespace Write

variable {T : Type} [JsValue T]

def call : Write T → Call T
  | .set id newValue => .set id newValue
  | .delete id => .delete id

def Defined (w : Write T) : Prop := w.call.DefinedValues

omit [JsValue T] in
def entry : Write T → BitVec 64 × Option T
  | .set id newValue => (id.bits,some newValue)
  | .delete id => (id.bits,none)

end Write

namespace Sketch

variable {T : Type}

noncomputable def rewrite (S : Contents T) (ws : List (Write T)) (sk : Sketch T) : Sketch T :=
  ⟨sk.expr,((ws.map Write.entry).foldl sk.expr.account.ledger.writeAt (S,sk.pages)).2,
    (ws.map Write.entry).foldl (fun m e => sk.expr.account.trail.enterOption e.2 m) sk.mark⟩

theorem rewrite_twice (S : Contents T) (ws : List (Write T)) (sk : Sketch T) :
    (sk.rewrite S ws).rewrite ((ws.map Write.entry).foldl (fun S e => Function.update S e.1 e.2) S) ws =
      sk.rewrite S ws := by
  obtain ⟨e,V,m⟩ := sk
  have hpages := congrArg Prod.snd (e.account.ledger.writeAt_twice (S,V) (ws.map Write.entry))
  have hmark := List.foldl_absorb (f := fun m (w : BitVec 64 × Option T) => e.account.trail.enterOption w.2 m)
    (fun m a b => e.account.trail.enterOption_comm b.2 a.2 m) (fun m a => e.account.trail.enterOption_idem a.2 m)
    (ws.map Write.entry) m
  have hS := e.account.ledger.foldl_writeAt_fst (S,V) (ws.map Write.entry)
  simp only [rewrite,Sketch.mk.injEq,heq_eq_eq,true_and]
  refine ⟨?_,hmark⟩
  rw [← hS]
  exact hpages

end Sketch

namespace Collection

variable {T : Type} [JsValue T] {c : Collection T} {sks : List (Sketch T)}

structure AgreesUpTo (R : List (Item T) → List (Item T) → Prop) (c c' : Collection T) : Prop where
  get : ∀ id, c'.get id = c.get id
  indexes : List.Forall₂ (RegisteredIndex.AgreesUpTo R c.context c'.context) c.indexes c'.indexes

def replay (ws : List (Write T)) (c : Collection T) : Collection T := (Procedure.play Call.exec (ws.map Write.call) c).2

theorem Sketched.write (h : c.Sketched sks) (w : Write T) (hw : w.Defined) : ∃ c', w.call.exec c = .returned () c' ∧
    c'.contents = Function.update c.contents w.entry.1 w.entry.2 ∧ c'.Sketched (sks.map (Sketch.rewrite c.contents [w])) := by
  cases w with
  | set id v =>
    obtain ⟨c',hr,hS,hs⟩ := h.set id hw
    refine ⟨c',hr,hS,?_⟩
    have hbook (sk : Sketch T) : sk.book (c.setUpdate id v) = sk.rewrite c.contents [.set id v] := by
      simp only [Sketch.book,Account.book,setUpdate_id,setUpdate_before h.defined,setUpdate_after]
      rfl
    rwa [funext hbook] at hs
  | delete id =>
    have hget := get_eq h.defined id
    cases hv : c.get id with
    | none =>
      have hS : c.contents id.bits = none := hget.symm.trans hv
      have hsame : Function.update c.contents id.bits none = c.contents := by
        rw [← hS,Function.update_eq_self]
      have hrewrite (sk : Sketch T) : sk.rewrite c.contents [.delete id] = sk := by
        obtain ⟨e,V,m⟩ := sk
        simp only [Sketch.rewrite,List.map_cons,List.map_nil,List.foldl_cons,List.foldl_nil,Ledger.writeAt,Write.entry,hS]
        exact congrArg (fun V => Sketch.mk e V m) (Function.update_eq_self _ V)
      refine ⟨c,Procedure.bind_returned (delete_absent hv),hsame.symm,?_⟩
      rwa [funext hrewrite,List.map_id']
    | some v =>
      obtain ⟨c',hr,hS,hs⟩ := h.delete hv
      refine ⟨c',Procedure.bind_returned hr,hS,?_⟩
      have hbook (sk : Sketch T) : sk.book (.delete id v) = sk.rewrite c.contents [.delete id] := by
        simp only [Sketch.book,Account.book,Sketch.rewrite,List.map_cons,List.map_nil,List.foldl_cons,List.foldl_nil,
          Ledger.writeAt,Write.entry]
        rw [← hget,hv]
        rfl
      rwa [funext hbook] at hs

theorem Sketched.replay (h : c.Sketched sks) (ws : List (Write T)) (hw : ∀ w ∈ ws, w.Defined) :
    (c.replay ws).contents = (ws.map Write.entry).foldl (fun S e => Function.update S e.1 e.2) c.contents ∧
      (c.replay ws).Sketched (sks.map (Sketch.rewrite c.contents ws)) := by
  induction ws generalizing c sks with
  | nil =>
    refine ⟨rfl,?_⟩
    have hid : sks.map (Sketch.rewrite c.contents []) = sks := List.map_id sks
    rwa [hid]
  | cons w ws ih =>
    obtain ⟨c₁,hr,hS,h₁⟩ := h.write w (hw w (by simp))
    have hplay : c.replay (w :: ws) = c₁.replay ws := by
      simp only [Collection.replay,List.map_cons,Procedure.play,hr,Outcome.state]
    obtain ⟨hc,hs⟩ := ih h₁ (fun w' hm => hw w' (by simp [hm]))
    rw [hplay]
    refine ⟨by rw [hc,hS]; rfl,?_⟩
    rw [hS,List.map_map] at hs
    exact hs

omit [JsValue T] in
theorem agreesUpTo_of_depicts {R : List (Item T) → List (Item T) → Prop} {ctx ctx' : IndexContext T}
    (hR : Renames (Equiv.refl _) ctx ctx' R) {ixs ixs' : List (RegisteredIndex T)}
    (hn : ∀ sk ∈ sks, sk.expr.NoUnique ∧ sk.expr.Lawful) (h : List.Forall₂ Sketch.Depicts sks ixs)
    (h' : List.Forall₂ Sketch.Depicts sks ixs') : List.Forall₂ (RegisteredIndex.AgreesUpTo R ctx ctx') ixs ixs' := by
  induction h generalizing ixs' with
  | nil =>
    cases h'
    exact .nil
  | @cons sk ix sks ixs hix _ ih =>
    cases h' with
    | cons hix' hrest =>
      refine .cons ?_ (ih (fun sk' hm => hn sk' (by simp [hm])) hrest)
      obtain ⟨hnu,hl⟩ := hn sk (by simp)
      exact hix.agreesUpTo hix' hnu hl hR (fun _ => rfl)

theorem context_eq_of_contents {c c' : Collection T} (h : c.contents = c'.contents) : c.context = c'.context := by
  have hget : c.context.get = c'.context.get := by
    funext id
    rw [context_get,context_get,h]
  exact congrArg IndexContext.mk hget

theorem replay_idempotent {T : Type} [JsValue T] {c : Collection T}
    (h : Visited Call.exec (fun _ call => call.DefinedValues) new c)
    (hn : ∀ ix ∈ c.indexes, ix.expr.NoUnique ∧ ix.expr.Lawful) (ws : List (Write T)) (hw : ∀ w ∈ ws, w.Defined) :
    (c.replay ws).AgreesUpTo List.Perm ((c.replay ws).replay ws) := by
  have hexprs (e : UnregisteredIndex T) (he : e ∈ c.exprs) : e.NoUnique ∧ e.Lawful := by
    obtain ⟨ix,hm,rfl⟩ := List.mem_map.mp he
    exact hn ix hm
  obtain ⟨sks,hs⟩ := visited_sketched h (fun e he => (hexprs e he).1)
  obtain ⟨hS₁,h₁⟩ := hs.replay ws hw
  obtain ⟨hS₂,h₂⟩ := h₁.replay ws hw
  have hsk : ∀ sk ∈ sks.map (Sketch.rewrite c.contents ws), sk.expr.NoUnique ∧ sk.expr.Lawful := by
    intro sk' hsk'
    obtain ⟨sk,hm,rfl⟩ := List.mem_map.mp hsk'
    refine hexprs sk.expr ?_
    rw [exprs,← Sketch.depicts_exprs hs.depicts]
    exact List.mem_map_of_mem hm
  have htwice : (sks.map (Sketch.rewrite c.contents ws)).map (Sketch.rewrite (c.replay ws).contents ws) =
      sks.map (Sketch.rewrite c.contents ws) := by
    rw [List.map_map,hS₁]
    exact List.map_congr_left (fun sk _ => sk.rewrite_twice c.contents ws)
  rw [htwice] at h₂
  have hcontents : ((c.replay ws).replay ws).contents = (c.replay ws).contents := by
    rw [hS₂,hS₁]
    exact Ledger.update_twice c.contents _
  have hctx := context_eq_of_contents hcontents
  refine ⟨fun id => congrArg (fun ctx : IndexContext T => ctx.get id) hctx,?_⟩
  refine agreesUpTo_of_depicts ?_ hsk h₁.depicts h₂.depicts
  intro ids ids' hp
  have hids : ids.map (Id.rename (Equiv.refl _)) = ids := List.map_id ids
  rw [hids] at hp
  rw [hctx]
  exact hp.map _

theorem moved_visited : Visited Call.exec (fun _ call => call.DefinedValues) new moved := by
  have h : Reached Call.exec (fun _ call => call.DefinedValues) new moved :=
    Procedure.reached_play movedCalls .start (by decide)
  exact h.visited

def movedWrites : List (Write ℕ) :=
  [.delete (Id.fromLong ⟨1,true⟩),.set (Id.fromLong ⟨2,true⟩) 7,.set (Id.fromLong ⟨1,true⟩) 6]

theorem replay_after_move : (moved.replay movedWrites).AgreesUpTo List.Perm ((moved.replay movedWrites).replay movedWrites) := by
  refine replay_idempotent moved_visited ?_ movedWrites ?_
  · intro ix hix
    rw [List.mem_singleton.mp hix]
    exact ⟨⟨trivial,trivial,trivial⟩,trivial,trivial,trivial⟩
  · intro w _
    cases w with
    | set id v => rfl
    | delete id => trivial

end Collection

end ComposableIndexes
