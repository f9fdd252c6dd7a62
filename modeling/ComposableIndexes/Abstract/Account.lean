import ComposableIndexes.Abstract.Expression
import ComposableIndexes.Library.Ledger

namespace ComposableIndexes

namespace Update

variable {A B : Type}

def before : Update A → Option A
  | .add _ _ => none
  | .update _ oldValue _ => some oldValue
  | .delete _ oldValue => some oldValue

def after : Update A → Option A
  | .add _ value => some value
  | .update _ _ newValue => some newValue
  | .delete _ _ => none

theorem filterMap_before {f : A → Option B} {u : Update A} {w : Update B} (h : filterMapUpdate f u = some w) :
    w.before = u.before.bind f := by
  cases u <;> simp only [filterMapUpdate] at h <;> split at h <;> cases h <;> simp_all [before]

theorem filterMap_after {f : A → Option B} {u : Update A} {w : Update B} (h : filterMapUpdate f u = some w) :
    w.after = u.after.bind f := by
  cases u <;> simp only [filterMapUpdate] at h <;> split at h <;> cases h <;> simp_all [after]

theorem filterMap_none {f : A → Option B} {u : Update A} (h : filterMapUpdate f u = none) :
    u.before.bind f = none ∧ u.after.bind f = none := by
  cases u <;> simp only [filterMapUpdate] at h <;> split at h <;> cases h <;> simp_all [before,after]

end Update

-- What an index knows of each id, and which groups it has made: all that calls leave behind in it, whether
-- or not they were additions of new ids.
structure Account (In σ : Type) where
  ledger : Ledger.{0,0} In
  trail : Trail.{0,0} In
  Shows : (BitVec 64 → ledger.Page) → σ → Prop
  mark : σ → trail.Mark

namespace Account

variable {In Out σ : Type} (A : Account In σ)

def Written (V : BitVec 64 → A.ledger.Page) (m : A.trail.Mark) (i : BitVec 64) (v : In) : Prop :=
  A.ledger.Has v (V i) ∧ A.trail.Entered v m

def book (u : Update In) (V : BitVec 64 → A.ledger.Page) : BitVec 64 → A.ledger.Page :=
  Function.update V u.id.bits (A.ledger.edit u.before u.after (V u.id.bits))

def Commits (V : BitVec 64 → A.ledger.Page) (m : A.trail.Mark) (o : Outcome (Exception Out) σ (Hook Out σ)) : Prop :=
  ∃ hook s₁ s₂, o = .returned hook s₁ ∧ hook s₁ = .returned () s₂ ∧ A.Shows V s₂ ∧ A.mark s₂ = m

structure Maintains (ix : Index In Out σ) : Prop where
  create : A.Shows (fun _ => A.ledger.blank) ix.create
  mark_create : A.mark ix.create = A.trail.blank
  onUpdate : ∀ ctx V s u, A.Shows V s → (∀ v, u.before = some v → A.Written V (A.mark s) u.id.bits v) →
    A.Commits (A.book u V) (A.trail.enterOption u.after (A.mark s)) (ix.onUpdate ctx u s)

variable {A} {ix : Index In Out σ} {V : BitVec 64 → A.ledger.Page} {s : σ} {u : Update In}

theorem Commits.congr {V' : BitVec 64 → A.ledger.Page} {m m' : A.trail.Mark} {o : Outcome (Exception Out) σ (Hook Out σ)}
    (h : A.Commits V m o) (hV : V = V') (hm : m = m') : A.Commits V' m' o := by
  rwa [← hV,← hm]

theorem Maintains.deliver (h : A.Maintains ix) (ctx : IndexContext Out) (hs : A.Shows V s)
    (hu : ∀ v, u.before = some v → A.Written V (A.mark s) u.id.bits v) : ∃ s', ix.deliver ctx u s = .returned () s' ∧
      A.Shows (A.book u V) s' ∧ A.mark s' = A.trail.enterOption u.after (A.mark s) := by
  obtain ⟨hook,s₁,s₂,ho,hh,hs₂,hm⟩ := h.onUpdate ctx V s u hs hu
  exact ⟨s₂,(Procedure.bind_returned ho).trans hh,hs₂,hm⟩

end Account

namespace HashIndex

variable {K : Type} [DecidableEq K] {V : BitVec 64 → Set K} {ix : State K} {id : Id} {k : K}

def Shows (V : BitVec 64 → Set K) (ix : State K) : Prop := Cover V (fun k => (ix.get k).map IdSet.toSet)

theorem shows_add (h : Shows V ix) (id : Id) (k : K) :
    Shows (Function.update V id.bits (insert k (V id.bits))) (add id k ix) :=
  cover_add h (get_add_self id k ix) (fun _ hk => get_add_of_ne id ix hk)

theorem shows_delete (Out : Type) (h : Shows V ix) (hk : k ∈ V id.bits) :
    ∃ ix', (delete id k : Procedure (Exception Out) (State K) Unit) ix = .returned () ix' ∧
      Shows (Function.update V id.bits (V id.bits \ {k})) ix' := by
  obtain ⟨X,hX,_⟩ := h.exists_bucket hk
  obtain ⟨set,hg,rfl⟩ := Option.map_eq_some_iff.mp hX
  obtain ⟨ix',hr,hself,hne⟩ := delete_spec Out id hg
  exact ⟨ix',hr,cover_delete h hk hg hself hne⟩

theorem shows_update (Out : Type) (h : Shows V ix) (hk : k ∈ V id.bits) (k' : K) :
    ∃ ix', (update id k k' : Procedure (Exception Out) (State K) Unit) ix = .returned () ix' ∧
      Shows (Function.update V id.bits (insert k' (V id.bits \ {k}))) ix' := by
  obtain ⟨ix',hd,hs⟩ := shows_delete Out h hk
  refine ⟨_,Procedure.bind_returned hd,?_⟩
  have ha := shows_add hs id k'
  rwa [Function.update_self,Function.update_idem] at ha

def account (K : Type) [DecidableEq K] : Account K (State K) := ⟨.keys K,.unit K,Shows,fun _ => ⟨⟩⟩

theorem maintains (Out : Type) : (account K).Maintains (index : Index K Out (State K)) where
  create := Cover.empty
  mark_create := rfl
  onUpdate ctx V ix u h hu := by
    cases u with
    | add id v => exact ⟨_,_,_,rfl,rfl,shows_add h id v,rfl⟩
    | delete id v =>
      obtain ⟨ix',hd,hs⟩ := shows_delete Out h (hu v rfl).1
      exact ⟨_,_,_,rfl,hd,hs,rfl⟩
    | update id v w =>
      obtain ⟨ix',hr,hs⟩ := shows_update Out h (hu v rfl).1 w
      exact ⟨_,_,_,rfl,hr,hs,rfl⟩

end HashIndex

namespace BTreeIndex

variable {K : Type} [LinearOrder K] [JsKey K] {lib : SortedBTree K IdSet} {V : BitVec 64 → Set K} {ix : lib.Tree}
  {id : Id} {k : K}

def Shows (lib : SortedBTree K IdSet) (V : BitVec 64 → Set K) (ix : lib.Tree) : Prop :=
  Cover V (fun k => (lib.get ix k).map IdSet.toSet)

omit [JsKey K] in
theorem shows_add (h : Shows lib V ix) (id : Id) (k : K) :
    Shows lib (Function.update V id.bits (insert k (V id.bits))) (add lib id k ix) :=
  cover_add h (get_add_self id k ix) (fun _ hk => get_add_of_ne id ix hk)

omit [JsKey K] in
theorem shows_delete (h : Shows lib V ix) (hk : k ∈ V id.bits) :
    Shows lib (Function.update V id.bits (V id.bits \ {k})) (delete lib id k ix) := by
  obtain ⟨X,hX,_⟩ := h.exists_bucket hk
  obtain ⟨set,hg,rfl⟩ := Option.map_eq_some_iff.mp hX
  exact cover_delete h hk hg (get_delete_self id hg) (fun _ hk => get_delete_of_ne id ix hk)

theorem shows_update (h : Shows lib V ix) (hk : k ∈ V id.bits) (k' : K) :
    Shows lib (Function.update V id.bits (insert k' (V id.bits \ {k}))) (update lib id k k' ix) := by
  unfold update
  split_ifs with he
  · rwa [← eq_of_strictEq he,Set.insert_sdiff_self_of_mem hk,Function.update_eq_self]
  · have ha := shows_add (shows_delete h hk) id k'
    rwa [Function.update_self,Function.update_idem] at ha

omit [JsKey K] in
theorem shows_new : Shows lib (fun _ => ∅) lib.new := by
  have h : (fun k => (lib.get lib.new k).map IdSet.toSet) = fun _ => none := by
    funext k
    rw [lib.get_new]
    rfl
  rw [Shows,h]
  exact Cover.empty

def account (lib : SortedBTree K IdSet) : Account K lib.Tree := ⟨.keys K,.unit K,Shows lib,fun _ => ⟨⟩⟩

theorem maintains (Out : Type) (lib : SortedBTree K IdSet) :
    (account lib).Maintains (index lib : Index K Out lib.Tree) where
  create := shows_new
  mark_create := rfl
  onUpdate ctx V ix u h hu := by
    cases u with
    | add id v => exact ⟨_,_,_,rfl,rfl,shows_add h id v,rfl⟩
    | update id v w => exact ⟨_,_,_,rfl,rfl,shows_update h (hu v rfl).1 w,rfl⟩
    | delete id v => exact ⟨_,_,_,rfl,rfl,shows_delete h (hu v rfl).1,rfl⟩

end BTreeIndex

namespace FoldIndex

variable {In State Return : Type} {args : FoldArgs In State Return} {V : BitVec 64 → Multiset In} {state : State}
  {i : BitVec 64} {v : In}

def Shows (args : FoldArgs In State Return) (V : BitVec 64 → Multiset In) (state : State) : Prop :=
  ∀ h : args.Lawful, state = total args h (tally V)

theorem shows_add (hs : Shows args V state) (i : BitVec 64) (v : In) :
    Shows args (Function.update V i (v ::ₘ V i)) (args.add state v) := by
  intro h
  rw [tally_cons,total_cons,hs h]

open Classical in
theorem shows_delete (hs : Shows args V state) (hv : v ∈ V i) :
    Shows args (Function.update V i ((V i).erase v)) (args.delete state v) := by
  intro h
  rw [hs h,tally_erase hv,total_cons,h.delete_add]

open Classical in
theorem shows_update (hs : Shows args V state) (hv : v ∈ V i) (w : In) :
    Shows args (Function.update V i (w ::ₘ (V i).erase v)) (args.update state v w) := by
  intro h
  have ha := shows_add (shows_delete hs hv) i w
  rw [Function.update_self,Function.update_idem] at ha
  rw [h.update_eq]
  exact ha h

noncomputable def account (args : FoldArgs In State Return) : Account In State :=
  ⟨.counts In,.unit In,Shows args,fun _ => ⟨⟩⟩

theorem maintains (Out : Type) (args : FoldArgs In State Return) :
    (account args).Maintains (index args : Index In Out State) where
  create h := (congrArg (total args h) tally_blank).symm
  mark_create := rfl
  onUpdate ctx V state u hs hu := by
    cases u with
    | add id v => exact ⟨_,_,_,rfl,rfl,shows_add hs id.bits v,rfl⟩
    | update id v w => exact ⟨_,_,_,rfl,rfl,shows_update hs (hu v rfl).1 w,rfl⟩
    | delete id v => exact ⟨_,_,_,rfl,rfl,shows_delete hs (hu v rfl).1,rfl⟩

end FoldIndex

end ComposableIndexes
