import ComposableIndexes.Abstract.AccountCombinators
import ComposableIndexes.Abstract.Runs

namespace ComposableIndexes

theorem Update.apply_eq {A : Type} (u : Update A) (S : Contents A) : u.apply S = Function.update S u.id.bits u.after := by
  cases u <;> rfl

-- The account of a registered index without its state.
structure Sketch (T : Type) where
  expr : UnregisteredIndex T
  pages : BitVec 64 → expr.account.ledger.Page
  mark : expr.account.trail.Mark

namespace Sketch

variable {T : Type}

noncomputable def blank (e : UnregisteredIndex T) : Sketch T := ⟨e,fun _ => e.account.ledger.blank,e.account.trail.blank⟩

noncomputable def book (u : Update T) (sk : Sketch T) : Sketch T :=
  ⟨sk.expr,sk.expr.account.book u sk.pages,sk.expr.account.trail.enterOption u.after sk.mark⟩

noncomputable def bookAll (items : List (Id × T)) (sk : Sketch T) : Sketch T := items.foldl (fun sk p => sk.book (.add p.1 p.2)) sk

def Written (sk : Sketch T) (i : BitVec 64) (v : T) : Prop := sk.expr.account.Written sk.pages sk.mark i v

theorem bookAll_expr (items : List (Id × T)) (sk : Sketch T) : (sk.bookAll items).expr = sk.expr := by
  induction items generalizing sk with
  | nil => rfl
  | cons p rest ih => exact ih (sk.book (.add p.1 p.2))

theorem written_book_self (sk : Sketch T) {u : Update T} {v : T} (h : u.after = some v) :
    (sk.book u).Written u.id.bits v := by
  refine ⟨?_,?_⟩
  · simp only [book,Account.book,Function.update_self,h]
    exact sk.expr.account.ledger.has_add v _
  · simp only [book,h]
    exact sk.expr.account.trail.entered_enter v _

theorem Written.book_of_ne {sk : Sketch T} {u : Update T} {i : BitVec 64} {v : T} (h : sk.Written i v)
    (hi : i ≠ u.id.bits) : (sk.book u).Written i v := by
  refine ⟨?_,h.2.enterOption _ u.after⟩
  simp only [book,Account.book,Function.update_of_ne hi]
  exact h.1

theorem Written.bookAll {sk : Sketch T} {i : BitVec 64} {v : T} (h : sk.Written i v) (items : List (Id × T)) :
    (sk.bookAll items).Written i v := by
  induction items generalizing sk with
  | nil => exact h
  | cons p rest ih =>
    refine ih ⟨?_,h.2.enterOption _ (some p.2)⟩
    simp only [book,Account.book,Function.update_apply]
    split_ifs with hi
    · rw [← hi]
      exact sk.expr.account.ledger.has_add_of_has p.2 h.1
    · exact h.1

theorem written_bookAll {sk : Sketch T} {items : List (Id × T)} {p : Id × T} (h : p ∈ items) :
    (sk.bookAll items).Written p.1.bits p.2 := by
  induction items generalizing sk with
  | nil => cases h
  | cons q rest ih =>
    rcases List.mem_cons.mp h with rfl | h
    · exact Written.bookAll (sk.written_book_self (u := .add p.1 p.2) rfl) rest
    · exact ih h

inductive Depicts : Sketch T → RegisteredIndex T → Prop where
  | mk {e : UnregisteredIndex T} {V : BitVec 64 → e.account.ledger.Page} {s : e.State} {log : List (Update T)}
      (h : e.account.Shows V s) : Depicts ⟨e,V,e.account.mark s⟩ ⟨e,s,log⟩

theorem Depicts.inv {e : UnregisteredIndex T} {V : BitVec 64 → e.account.ledger.Page} {m : e.account.trail.Mark}
    {ix : RegisteredIndex T} (h : Depicts ⟨e,V,m⟩ ix) :
    ∃ s log, ix = ⟨e,s,log⟩ ∧ e.account.Shows V s ∧ e.account.mark s = m := by
  cases h with
  | @mk _ _ s log hs => exact ⟨s,log,rfl,hs,rfl⟩

theorem depicts_exprs {sks : List (Sketch T)} {ixs : List (RegisteredIndex T)} (h : List.Forall₂ Depicts sks ixs) :
    sks.map (fun sk => sk.expr) = ixs.map (fun ix => ix.expr) := by
  induction h with
  | nil => rfl
  | cons hix _ ih =>
    cases hix
    simp [ih]

variable (ctx : IndexContext T) {sk : Sketch T} {ix : RegisteredIndex T} {u : Update T}

theorem depicts_new {e : UnregisteredIndex T} (hn : e.NoUnique) : Depicts (blank e) (RegisteredIndex.new e) := by
  have hm := e.maintains T hn
  rw [blank,← hm.mark_create]
  exact .mk hm.create

theorem Depicts.receive (h : Depicts sk ix) (hn : sk.expr.NoUnique)
    (hu : ∀ v, u.before = some v → sk.Written u.id.bits v) :
    ∃ ix', RegisteredIndex.receive ctx u ix = .returned () ix' ∧ Depicts (sk.book u) ix' := by
  cases h with
  | @mk e V s log hs =>
    obtain ⟨s',hr,hs',hm⟩ := (e.maintains T hn).deliver ctx hs hu
    refine ⟨⟨e,s',log ++ [u]⟩,by simp only [RegisteredIndex.receive,hr],?_⟩
    rw [book,← hm]
    exact .mk hs'

theorem Depicts.receiveAll (h : Depicts sk ix) (hn : sk.expr.NoUnique) (items : List (Id × T)) :
    ∃ ix', RegisteredIndex.receiveAll ctx items ix = .returned () ix' ∧ Depicts (sk.bookAll items) ix' := by
  induction items generalizing sk ix with
  | nil => exact ⟨ix,rfl,h⟩
  | cons p rest ih =>
    obtain ⟨ix₁,hr,h₁⟩ := h.receive (u := .add p.1 p.2) ctx hn (fun v hv => by cases hv)
    obtain ⟨ix₂,hrest,h₂⟩ := ih h₁ hn
    exact ⟨ix₂,(Procedure.bind_returned hr).trans hrest,h₂⟩

theorem depicts_propagate {sks : List (Sketch T)} {ixs : List (RegisteredIndex T)} (h : List.Forall₂ Depicts sks ixs)
    (hn : ∀ sk ∈ sks, sk.expr.NoUnique) (hu : ∀ sk ∈ sks, ∀ v, u.before = some v → sk.Written u.id.bits v) :
    ∃ ps ixs', Collection.collectHooks ctx u ixs = .ok ps ∧ Collection.runHooks u ps = .returned () ixs' ∧
      List.Forall₂ Depicts (sks.map (book u)) ixs' := by
  induction h with
  | nil => exact ⟨[],[],rfl,rfl,.nil⟩
  | @cons sk ix sks ixs hix _ ih =>
    obtain ⟨ps,ixs',hc,hr,hall⟩ := ih (fun sk' hm => hn sk' (by simp [hm])) (fun sk' hm => hu sk' (by simp [hm]))
    have hnsk := hn sk (by simp)
    have husk := hu sk (by simp)
    cases hix with
    | @mk e V s log hs =>
      obtain ⟨hook,s₁,s₂,ho,hh,hs₂,hm⟩ := (e.maintains T hnsk).onUpdate ctx V s u hs husk
      refine ⟨⟨e,s₁,hook,log⟩ :: ps,⟨e,s₂,log ++ [u]⟩ :: ixs',by simp only [Collection.collectHooks,ho,hc],?_,?_⟩
      · simp only [Collection.runHooks,hh,hr,Outcome.mapState]
      · refine .cons ?_ hall
        rw [book,← hm]
        exact .mk hs₂

end Sketch

namespace Collection

open Procedure (Preserves)

variable {T : Type} [JsValue T] {c c' : Collection T} {sks : List (Sketch T)} {id : Id} {v : T}

structure Sketched (c : Collection T) (sks : List (Sketch T)) : Prop where
  defined : ∀ i v, c.contents i = some v → JsValue.Defined v
  depicts : List.Forall₂ Sketch.Depicts sks c.indexes
  noUnique : ∀ sk ∈ sks, sk.expr.NoUnique
  written : ∀ sk ∈ sks, ∀ i v, c.contents i = some v → sk.Written i v

theorem sketched_new : (new : Collection T).Sketched [] :=
  ⟨by simp [contents,new],.nil,by simp,by simp⟩

theorem Sketched.propagate (h : c.Sketched sks) (u : Update T) (c' : Collection T) (hix : c'.indexes = c.indexes)
    (hS : c'.contents = u.apply c.contents) (hv : ∀ v, u.after = some v → JsValue.Defined v)
    (hb : ∀ v, u.before = some v → c.contents u.id.bits = some v) :
    ∃ ixs, propagateUpdate u c' = .returned () { c' with indexes := ixs } ∧
      Sketched { c' with indexes := ixs } (sks.map (Sketch.book u)) := by
  obtain ⟨ps,ixs,hc,hr,hd⟩ := Sketch.depicts_propagate c'.context h.depicts h.noUnique
    (fun sk hsk v hv => h.written sk hsk _ v (hb v hv))
  rw [← hix] at hc
  have hS' (i : BitVec 64) : c'.contents i = if i = u.id.bits then u.after else c.contents i := by
    rw [hS,Update.apply_eq,Function.update_apply]
  refine ⟨ixs,by simp only [propagateUpdate,hc,hr,Outcome.mapState],?_,hd,?_,?_⟩
  · intro i v hi
    have hi' : c'.contents i = some v := hi
    rw [hS'] at hi'
    split_ifs at hi'
    · exact hv v hi'
    · exact h.defined i v hi'
  · intro sk' hsk'
    obtain ⟨sk,hsk,rfl⟩ := List.mem_map.mp hsk'
    exact h.noUnique sk hsk
  · intro sk' hsk' i v hi
    obtain ⟨sk,hsk,rfl⟩ := List.mem_map.mp hsk'
    have hi' : c'.contents i = some v := hi
    rw [hS'] at hi'
    split_ifs at hi' with he
    · rw [he]
      exact sk.written_book_self hi'
    · exact (h.written sk hsk i v hi').book_of_ne he

theorem Sketched.add (h : c.Sketched sks) (hv : JsValue.Defined v) : ∃ c', add v c = .returned c.nextId c' ∧
    c'.last = c.nextId ∧ c'.contents = c.contents.set c.nextId.bits v ∧
      c'.Sketched (sks.map (Sketch.book (.add c.nextId v))) := by
  have hst := find_set_eq c c.nextId v
  obtain ⟨ixs,hr,hs⟩ := h.propagate (.add c.nextId v) { c with last := c.nextId, store := c.store.set c.nextId v } rfl hst
    (fun w hw => by cases hw; exact hv) (fun w hw => by cases hw)
  refine ⟨_,?_,rfl,?_,hs⟩
  · rw [add_apply,Procedure.bind_returned hr,Procedure.pure_apply]
  · exact hst

theorem setUpdate_before (hd : ∀ i v, c.contents i = some v → JsValue.Defined v) (id : Id) (v : T) :
    (c.setUpdate id v).before = c.contents id.bits := by
  have hget := get_eq hd id
  unfold setUpdate
  cases hv : c.get id with
  | none => exact hv.symm.trans hget
  | some w => exact hv.symm.trans hget

theorem setUpdate_after (c : Collection T) (id : Id) (v : T) : (c.setUpdate id v).after = some v := by
  unfold setUpdate
  cases c.get id <;> rfl

theorem Sketched.set (h : c.Sketched sks) (id : Id) (hv : JsValue.Defined v) : ∃ c', set id v c = .returned () c' ∧
    c'.contents = c.contents.set id.bits v ∧ c'.Sketched (sks.map (Sketch.book (c.setUpdate id v))) := by
  have hst := find_set_eq c id v
  obtain ⟨ixs,hr,hs⟩ := h.propagate (c.setUpdate id v) { c with last := c.raisedLast id, store := c.store.set id v } rfl
    (by rw [setUpdate_apply]; exact hst)
    (fun w hw => by rw [setUpdate_after] at hw; cases hw; exact hv)
    (fun w hw => by rwa [setUpdate_id,← setUpdate_before h.defined id v])
  refine ⟨_,?_,?_,hs⟩
  · rw [set_apply,hr]
  · exact hst

theorem Sketched.delete (h : c.Sketched sks) (hv : c.get id = some v) : ∃ c', delete id c = .returned (some v) c' ∧
    c'.contents = c.contents.erase id.bits ∧ c'.Sketched (sks.map (Sketch.book (.delete id v))) := by
  have hst := find_delete_eq c id
  obtain ⟨ixs,hr,hs⟩ := h.propagate (.delete id v) { c with store := c.store.delete id } rfl hst (fun w hw => by cases hw)
    (fun w hw => by cases hw; exact (get_eq h.defined id).symm.trans hv)
  refine ⟨_,?_,?_,hs⟩
  · rw [delete_apply hv,Procedure.bind_returned hr,Procedure.pure_apply]
  · exact hst

theorem Sketched.registerIndex (h : c.Sketched sks) {e : UnregisteredIndex T} (hn : e.NoUnique) :
    ∃ ix, registerIndex e c = .returned ix { c with indexes := c.indexes ++ [ix] } ∧
      Sketched { c with indexes := c.indexes ++ [ix] } (sks ++ [(Sketch.blank e).bookAll c.toList]) := by
  obtain ⟨ix,hr,hd⟩ := (Sketch.depicts_new hn).receiveAll c.context hn c.toList
  have hr' : RegisteredIndex.receiveAll c.context c.store.entries (.new e) = .returned () ix := hr
  have hexpr : ((Sketch.blank e).bookAll c.toList).expr = e := Sketch.bookAll_expr _ _
  refine ⟨ix,by simp only [Collection.registerIndex,hr'],h.defined,List.rel_append h.depicts (.cons hd .nil),?_,?_⟩
  · intro sk hsk
    rcases List.mem_append.mp hsk with hsk | hsk
    · exact h.noUnique sk hsk
    · rw [List.mem_singleton.mp hsk,hexpr]
      exact hn
  · intro sk hsk i v hi
    rcases List.mem_append.mp hsk with hsk | hsk
    · exact h.written sk hsk i v hi
    · have hm : (Id.fromLong ⟨i,true⟩,v) ∈ c.toList := mem_toList.mpr ⟨rfl,hi⟩
      rw [List.mem_singleton.mp hsk]
      exact Sketch.written_bookAll hm

omit [JsValue T] in
theorem preserves_receiveAll (e : UnregisteredIndex T) (ctx : IndexContext T) (items : List (Id × T)) :
    Preserves (fun ix => ix.expr = e) (RegisteredIndex.receiveAll ctx items) := by
  induction items with
  | nil => exact .pure _
  | cons p rest ih =>
    refine .bind ?_ (fun _ => ih)
    intro ix hix
    unfold RegisteredIndex.receive
    cases (ix.expr.index T).deliver ctx (.add p.1 p.2) ix.state <;> exact hix

def HasSketch (c : Collection T) : Prop := (∀ e ∈ c.exprs, e.NoUnique) → ∃ sks, c.Sketched sks

theorem preserves_hasSketch_registerIndex (e : UnregisteredIndex T) :
    Preserves HasSketch (Collection.registerIndex e : Procedure (Exception T) (Collection T) (RegisteredIndex T)) := by
  intro c hc
  cases hr : RegisteredIndex.receiveAll c.context c.store.entries (.new e) with
  | thrown x ix =>
    have hreg : Collection.registerIndex e c = .thrown x c := by simp only [Collection.registerIndex,hr]
    rwa [hreg]
  | returned a ix =>
    have hreg : Collection.registerIndex e c = .returned ix { c with indexes := c.indexes ++ [ix] } := by
      simp only [Collection.registerIndex,hr]
    rw [hreg]
    intro hn
    have hix := preserves_receiveAll e c.context c.store.entries (.new e) rfl
    rw [hr] at hix
    have hexpr : ix.expr = e := hix
    have he : e.NoUnique := hn e (by simp [exprs,Outcome.state,hexpr])
    obtain ⟨sks,hs⟩ := hc (fun e' he' => hn e' (by
      obtain ⟨ix',hm,rfl⟩ := List.mem_map.mp he'
      exact List.mem_map_of_mem (List.mem_append_left [ix] hm)))
    obtain ⟨ix',hr',hs'⟩ := hs.registerIndex he
    rw [hreg] at hr'
    cases hr'
    exact ⟨_,hs'⟩

theorem preserves_hasSketch {call : Call T} (hd : call.DefinedValues) : Preserves HasSketch call.exec := by
  refine preserves_exec preserves_hasSketch_registerIndex ?_ ?_ ?_ hd
  · intro v hv c hc hn
    rw [add_exprs] at hn
    obtain ⟨sks,hs⟩ := hc hn
    obtain ⟨c',hr,_,_,hs'⟩ := hs.add hv
    rw [hr]
    exact ⟨_,hs'⟩
  · intro id v hv c hc hn
    rw [set_exprs] at hn
    obtain ⟨sks,hs⟩ := hc hn
    obtain ⟨c',hr,_,hs'⟩ := hs.set id hv
    rw [hr]
    exact ⟨_,hs'⟩
  · intro id c hc hn
    rw [delete_exprs] at hn
    obtain ⟨sks,hs⟩ := hc hn
    cases hv : c.get id with
    | none =>
      rw [delete_absent hv]
      exact ⟨sks,hs⟩
    | some v =>
      obtain ⟨c',hr,_,hs'⟩ := hs.delete hv
      rw [hr]
      exact ⟨_,hs'⟩

theorem visited_sketched (h : Visited Call.exec (fun _ call => call.DefinedValues) new c)
    (hn : ∀ e ∈ c.exprs, e.NoUnique) : ∃ sks, c.Sketched sks :=
  h.invariant (fun _ => ⟨[],sketched_new⟩) (fun c _ hc hd => preserves_hasSketch hd c hc) hn

end Collection

end ComposableIndexes
