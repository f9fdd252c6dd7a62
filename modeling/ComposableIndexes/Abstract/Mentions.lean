import ComposableIndexes.Abstract.Calls

namespace ComposableIndexes

open Procedure (Keeps)

def Blames {Out : Type} (ctx : IndexContext Out) (id : Id) (x : Exception Out) : Prop :=
  x = .typeError ∨ x = conflictException ctx id

theorem Blames.existingId {Out : Type} {ctx : IndexContext Out} {id existingId : Id} {existingValue : Option Out}
    (h : Blames ctx id (.conflict existingId existingValue)) : existingId = id := by
  rcases h with h | h <;> cases h
  rfl

-- The id of an update that an index may take up; a deletion leaves none behind.
def Update.Takes {In : Type} (A : Id → Prop) : Update In → Prop
  | .add id _ => A id
  | .update id _ _ => A id
  | .delete _ _ => True

theorem Update.takes_of_id {In : Type} {A : Id → Prop} {u : Update In} (h : A u.id) : u.Takes A := by
  cases u with
  | add id v => exact h
  | update id v w => exact h
  | delete id v => trivial

theorem Update.takes_filterMap {A B : Type} {I : Id → Prop} {f : A → Option B} {u : Update A} {w : Update B}
    (hu : u.Takes I) (hw : filterMapUpdate f u = some w) : w.Takes I := by
  cases u <;> simp only [filterMapUpdate] at hw <;> split at hw <;> cases hw
  all_goals first | exact hu | trivial

-- An index takes up no other id than that of the update it is given, and blames no other for a conflict.
structure Confined {In Out σ : Type} (I : σ → Prop) (A : Id → Prop) (ix : Index In Out σ) : Prop where
  create : I ix.create
  onUpdate : ∀ ctx u, u.Takes A →
    Keeps I (Blames ctx u.id) (Keeps I (Blames ctx u.id) (fun _ => True)) (ix.onUpdate ctx u)

theorem Confined.deliver {In Out σ : Type} {I : σ → Prop} {A : Id → Prop} {ix : Index In Out σ} (h : Confined I A ix)
    (ctx : IndexContext Out) {u : Update In} (hu : u.Takes A) :
    Keeps I (Blames ctx u.id) (fun _ => True) (ix.deliver ctx u) :=
  (h.onUpdate ctx u hu).bind (fun _ hh => hh)

theorem keeps_skip {Out σ : Type} {I : σ → Prop} {E : Exception Out → Prop} :
    Keeps I E (fun _ => True) (Hook.skip : Hook Out σ) := fun _ hs => .returned trivial hs

theorem keeps_andThen {Out σ : Type} {I : σ → Prop} {E : Exception Out → Prop} {hook next : Hook Out σ}
    (h : Keeps I E (fun _ => True) hook) (hn : Keeps I E (fun _ => True) next) :
    Keeps I E (fun _ => True) (hook.andThen next) := by
  intro s hs
  have hh := h s hs
  unfold Hook.andThen
  generalize hook s = o at hh
  cases hh with
  | returned _ hs' => exact hn _ hs'
  | thrown he hs' => exact .thrown he hs'

-- The containers of ids forget the signedness of an id and give the unsigned one back.
def Rebuilds (A : Id → Prop) : Prop := ∀ a b : Id, A a → b.Unsigned → b.bits = a.bits → A b

namespace IdSet

variable {A : Id → Prop} {s : IdSet} {id : Id}

def Mentions (A : Id → Prop) (s : IdSet) : Prop := ∀ id ∈ s.values, A id

theorem mentions_new : Mentions A new := by
  intro id hid
  simp [mem_values] at hid

theorem Mentions.set (hA : Rebuilds A) (h : s.Mentions A) (ha : A id) : (s.set id).Mentions A := by
  intro b hb
  rw [mem_values,toSet_set] at hb
  rcases hb with ⟨hu,hbits | hmem⟩
  · exact hA id b ha hu hbits
  · exact h b ((s.mem_values b).mpr ⟨hu,hmem⟩)

theorem Mentions.delete (h : s.Mentions A) : (s.delete id).Mentions A := by
  intro b hb
  rw [mem_values,toSet_delete] at hb
  exact h b ((s.mem_values b).mpr ⟨hb.1,hb.2.1⟩)

end IdSet

namespace HashIndex

variable {K Out : Type} [DecidableEq K] {A : Id → Prop} {ix : State K} {id : Id} {k : K} {E : Exception Out → Prop}

theorem add_mentions (hA : Rebuilds A) (h : ix.All (IdSet.Mentions A)) (ha : A id) :
    (add id k ix).All (IdSet.Mentions A) := by
  unfold add
  split
  · exact h.set ((h k _ ‹_›).set hA ha)
  · exact h.set (IdSet.mentions_new.set hA ha)

theorem delete_keeps (hE : E .typeError) :
    Keeps (OrderedMap.All (IdSet.Mentions A)) E (fun _ => True) (delete id k : Procedure (Exception Out) (State K) Unit) := by
  intro ix h
  unfold delete
  cases hg : ix.get k with
  | none => exact .thrown hE h
  | some set =>
    simp only
    split_ifs
    · exact .returned trivial h.delete
    · exact .returned trivial (h.set (h k set hg).delete)

theorem confined (hA : Rebuilds A) : Confined (OrderedMap.All (IdSet.Mentions A)) A (index : Index K Out (State K)) where
  create := OrderedMap.all_empty
  onUpdate ctx u hu := by
    refine Keeps.pure ?_
    cases u with
    | add id v => exact .write (fun _ hs => add_mentions hA hs hu)
    | update id v w => exact (delete_keeps (.inl rfl)).bind (fun _ _ => .write (fun _ hs => add_mentions hA hs hu))
    | delete id v => exact delete_keeps (.inl rfl)

end HashIndex

namespace BTreeIndex

variable {K Out : Type} [LinearOrder K] {lib : SortedBTree K IdSet} {A : Id → Prop} {ix : lib.Tree} {id : Id} {k : K}

def Mentions (lib : SortedBTree K IdSet) (A : Id → Prop) (ix : lib.Tree) : Prop :=
  ∀ k set, lib.get ix k = some set → set.Mentions A

theorem Mentions.set (h : Mentions lib A ix) {set : IdSet} (hs : set.Mentions A) : Mentions lib A (lib.set ix k set) := by
  intro k' set' hg
  rw [lib.get_set] at hg
  split_ifs at hg
  · cases hg
    exact hs
  · exact h k' set' hg

theorem Mentions.delete (h : Mentions lib A ix) : Mentions lib A (lib.delete ix k) := by
  intro k' set' hg
  rw [lib.get_delete] at hg
  split_ifs at hg
  exact h k' set' hg

theorem add_mentions (hA : Rebuilds A) (h : Mentions lib A ix) (ha : A id) : Mentions lib A (add lib id k ix) := by
  unfold add
  split
  · exact h.set ((h k _ ‹_›).set hA ha)
  · exact h.set (IdSet.mentions_new.set hA ha)

theorem delete_mentions (h : Mentions lib A ix) : Mentions lib A (delete lib id k ix) := by
  unfold delete
  split
  · exact h
  · split_ifs
    · exact h.delete
    · exact h.set (h k _ ‹_›).delete

variable [JsKey K]

theorem update_mentions (hA : Rebuilds A) (h : Mentions lib A ix) (ha : A id) (k' : K) :
    Mentions lib A (update lib id k k' ix) := by
  unfold update
  split_ifs
  · exact h
  · exact add_mentions hA (delete_mentions h) ha

theorem confined (hA : Rebuilds A) : Confined (Mentions lib A) A (index lib : Index K Out lib.Tree) where
  create := by
    intro k set hg
    rw [index,lib.get_new] at hg
    cases hg
  onUpdate ctx u hu := by
    refine Keeps.pure ?_
    cases u with
    | add id v => exact .write (fun _ hs => add_mentions hA hs hu)
    | update id v w => exact .write (fun _ hs => update_mentions hA hs hu w)
    | delete id v => exact .write (fun _ hs => delete_mentions hs)

end BTreeIndex

namespace UniqueHashIndex

variable {K Out : Type} [DecidableEq K] {A : Id → Prop}

theorem confined : Confined (OrderedMap.All A) A (index : Index K Out (State K)) where
  create := OrderedMap.all_empty
  onUpdate ctx u hu := by
    intro ix h
    cases u with
    | add id v =>
      simp only [index]
      split_ifs
      · exact .thrown (.inr rfl) h
      · exact .returned (.write (fun _ hs => hs.set hu)) h
    | update id v w =>
      simp only [index]
      split_ifs
      · exact .thrown (.inr rfl) h
      · exact .returned (.write (fun _ hs => hs.delete.set hu)) h
    | delete id v => exact .returned (.write (fun _ hs => hs.delete)) h

end UniqueHashIndex

namespace FoldIndex

theorem confined {In State Return Out : Type} (args : FoldArgs In State Return) (A : Id → Prop) :
    Confined (fun _ => True) A (index args : Index In Out State) where
  create := trivial
  onUpdate _ _ _ := .pure (.write (fun _ _ => trivial))

end FoldIndex

namespace PremapIndex

theorem confined {In InnerIn Out σ : Type} {I : σ → Prop} {A : Id → Prop} {inner : Index InnerIn Out σ}
    (f : In → Option InnerIn) (h : Confined I A inner) : Confined I A (index f inner) where
  create := h.create
  onUpdate ctx u hu := by
    simp only [index]
    cases hw : filterMapUpdate f u with
    | none => exact .pure keeps_skip
    | some w =>
      rw [← filterMapUpdate_id hw]
      exact h.onUpdate ctx w (Update.takes_filterMap hu hw)

end PremapIndex

namespace GroupedIndex

variable {In Out G σ : Type} [DecidableEq G] {I : σ → Prop} {A : Id → Prop} {inner : Index In Out σ} {f : In → G}

theorem getOrCreateGroup_keeps {E : Exception Out → Prop} (h : I inner.create) (g : G) :
    Keeps (OrderedMap.All I) E (fun _ => True) (getOrCreateGroup inner g) := by
  intro ixs hs
  unfold getOrCreateGroup
  split
  · exact .returned trivial hs
  · exact .returned trivial (hs.set h)

theorem inGroup_keeps {ctx : IndexContext Out} {id : Id} {α : Type} {B : α → Prop} {x : Procedure (Exception Out) σ α}
    (g : G) (h : Keeps I (Blames ctx id) B x) : Keeps (OrderedMap.All I) (Blames ctx id) B (inGroup g x) :=
  OrderedMap.All.atKey (.inl rfl) h

-- Validation in a group: the hook it returns runs in that group.
theorem validate_keeps (h : Confined I A inner) (ctx : IndexContext Out) {u : Update In} (hu : u.Takes A) (g : G) :
    Keeps (OrderedMap.All I) (Blames ctx u.id) (Keeps (OrderedMap.All I) (Blames ctx u.id) (fun _ => True))
      (inGroup g (inner.onUpdate ctx u) >>= fun hook => pure (inGroup g hook)) :=
  (inGroup_keeps g (h.onUpdate ctx u hu)).bind (fun _ hh => .pure (inGroup_keeps g hh))

theorem confined [JsKey G] (f : In → G) (h : Confined I A inner) :
    Confined (OrderedMap.All I) A (index f inner) where
  create := OrderedMap.all_empty
  onUpdate ctx u hu := by
    cases u with
    | add id v => exact (getOrCreateGroup_keeps h.create (f v)).bind (fun _ _ => validate_keeps h ctx hu (f v))
    | delete id v => exact validate_keeps h ctx hu (f v)
    | update id v w =>
      simp only [index,update]
      split_ifs
      · exact validate_keeps h ctx hu (f v)
      · refine Keeps.bind (A := fun _ => True) (.read (fun _ _ => trivial)) (fun oldIx _ => ?_)
        refine (getOrCreateGroup_keeps h.create (f w)).bind (fun _ _ => .pure ?_)
        split_ifs
        · exact keeps_andThen (inGroup_keeps _ (h.deliver ctx (u := .delete id v) trivial))
            (inGroup_keeps _ (h.deliver ctx (u := .add id w) hu))
        · exact .raise (.inl rfl)

end GroupedIndex

namespace ZipIndex

variable {In Out σ τ : Type} {A : Id → Prop}

theorem confined_nil : Confined (fun _ => True) A (nil : Index In Out Unit) where
  create := trivial
  onUpdate _ _ _ := .pure keeps_skip

theorem confined_cons {I : σ → Prop} {J : τ → Prop} {head : Index In Out σ} {tail : Index In Out τ}
    (hh : Confined I A head) (ht : Confined J A tail) : Confined (fun s => I s.1 ∧ J s.2) A (cons head tail) where
  create := ⟨hh.create,ht.create⟩
  onUpdate ctx u hu := by
    refine Keeps.bind (hh.onUpdate ctx u hu).first (fun cb hcb => ?_)
    refine Keeps.bind (ht.onUpdate ctx u hu).second (fun cbs hcbs => .pure ?_)
    exact keeps_andThen hcb.first hcbs.second

end ZipIndex

theorem UnregisteredAggregateIndex.confined {In Value : Type} (Out : Type) (A : Id → Prop)
    (a : UnregisteredAggregateIndex In Value) : Confined (fun _ => True) A (a.index Out) := by
  induction a with
  | fold args => exact FoldIndex.confined args A
  | mapAggregate inner pre m ih => exact PremapIndex.confined _ ih

namespace UnregisteredIndex

def Mentions (A : Id → Prop) : {In : Type} → (e : UnregisteredIndex In) → e.State → Prop
  | _, @hashIndex _ _ => OrderedMap.All (IdSet.Mentions A)
  | _, @btreeIndex _ _ _ lib => BTreeIndex.Mentions lib A
  | _, @uniqueHashIndex _ _ => OrderedMap.All A
  | _, .aggregate _ => fun _ => True
  | _, .premap _ inner => Mentions A inner
  | _, @group _ _ _ _ _ inner => OrderedMap.All (Mentions A inner)
  | _, .zipNil => fun _ => True
  | _, .zipCons head tail => fun s => Mentions A head s.1 ∧ Mentions A tail s.2

theorem confined {In : Type} (Out : Type) {A : Id → Prop} (hA : Rebuilds A) (e : UnregisteredIndex In) :
    Confined (e.Mentions A) A (e.index Out) := by
  induction e with
  | hashIndex => exact HashIndex.confined hA
  | btreeIndex lib => exact BTreeIndex.confined hA
  | uniqueHashIndex => exact UniqueHashIndex.confined
  | aggregate a => exact a.confined Out A
  | premap f inner ih => exact PremapIndex.confined f ih
  | group f inner ih => exact GroupedIndex.confined f ih
  | zipNil => exact ZipIndex.confined_nil
  | zipCons head tail ihh iht => exact ZipIndex.confined_cons ihh iht

theorem Mentions.imp {In : Type} {A B : Id → Prop} (hAB : ∀ id, A id → B id) (e : UnregisteredIndex In) {s : e.State}
    (h : e.Mentions A s) : e.Mentions B s := by
  induction e with
  | hashIndex => exact fun k set hg id hid => hAB id (h k set hg id hid)
  | btreeIndex lib => exact fun k set hg id hid => hAB id (h k set hg id hid)
  | uniqueHashIndex => exact fun k id hg => hAB id (h k id hg)
  | aggregate a => trivial
  | premap f inner ih => exact ih h
  | group f inner ih => exact fun g st hg => ih (h g st hg)
  | zipNil => trivial
  | zipCons head tail ihh iht => exact ⟨ihh h.1,iht h.2⟩

theorem mentions_any {In : Type} (e : UnregisteredIndex In) (s : e.State) : e.Mentions (fun _ => True) s := by
  induction e with
  | hashIndex => exact fun _ _ _ _ _ => trivial
  | btreeIndex lib => exact fun _ _ _ _ _ => trivial
  | uniqueHashIndex => exact fun _ _ _ => trivial
  | aggregate a => trivial
  | premap f inner ih => exact ih s
  | group f inner ih => exact fun _ st _ => ih st
  | zipNil => trivial
  | zipCons head tail ihh iht => exact ⟨ihh s.1,iht s.2⟩

end UnregisteredIndex

namespace Query

variable {Out : Type} {A : Id → Prop} {ctx : IndexContext Out}

theorem items_of_set {set : Option IdSet} (h : ∀ s, set = some s → s.Mentions A) :
    ∀ it ∈ HashIndex.items ctx set, A it.id := by
  cases set with
  | none => simp [HashIndex.items]
  | some s =>
    intro it hit
    obtain ⟨id,hid,rfl⟩ := List.mem_map.mp hit
    exact h s rfl id hid

section Tree

variable {K : Type} [LinearOrder K] {lib : SortedBTree K IdSet} {ix : lib.Tree}

theorem items_of_extremes (h : BTreeIndex.Mentions lib A ix) (key : Option K) :
    ∀ it ∈ BTreeIndex.extremes lib ctx ix key, A it.id := by
  cases key with
  | none => simp [BTreeIndex.extremes]
  | some k => exact items_of_set (fun s hs => h k s hs)

theorem item_of_extreme1 (h : BTreeIndex.Mentions lib A ix) {key : Option K} {r : Option (Item Out)}
    (hr : BTreeIndex.extreme1 lib ctx ix key = .ok r) : ∀ it ∈ r.toList, A it.id := by
  unfold BTreeIndex.extreme1 at hr
  split at hr
  · cases hr
    simp
  · split at hr
    · cases hr
    · rename_i k _ set hs
      cases hr
      intro it hit
      cases hv : set.values with
      | nil => simp [hv] at hit
      | cons id rest =>
        have hit' : it = ctx.item id := by simpa [hv] using hit
        rw [hit']
        exact h k set hs id (by simp [hv])

theorem items_of_range (h : BTreeIndex.Mentions lib A ix) (low high : K) (limit : Option ℕ) :
    ∀ it ∈ BTreeIndex.range lib ctx ix low high limit, A it.id := by
  have hsub : ∀ p ∈ lib.getRange ix low high true limit, p ∈ lib.entries ix := by
    intro p hp
    rw [lib.getRange_eq] at hp
    cases limit with
    | none => exact List.mem_of_mem_filter hp
    | some n => exact List.mem_of_mem_filter (List.mem_of_mem_take hp)
  intro it hit
  obtain ⟨p,hp,hitem⟩ := List.mem_flatMap.mp hit
  obtain ⟨id,hid,rfl⟩ := List.mem_map.mp hitem
  exact h p.1 p.2 ((lib.mem_entries ix p.1 p.2).mp (hsub p hp)) id hid

end Tree

theorem item_of_holder {K : Type} [DecidableEq K] {s : UniqueHashIndex.State K} (h : OrderedMap.All A s) (key : K) :
    ∀ it ∈ (UniqueHashIndex.eq ctx s key).toList, A it.id := by
  intro it hit
  cases hg : OrderedMap.get s key with
  | none => simp [UniqueHashIndex.eq,hg] at hit
  | some id =>
    have hit' : it = ctx.item id := by simpa [UniqueHashIndex.eq,hg] using hit
    rw [hit']
    exact h key id hg

theorem run_groupGet {In G R : Type} [DecidableEq G] [JsKey G] {f : In → G} {inner : UnregisteredIndex In} {g : G}
    {q : Query Out inner R} {s : GroupedIndex.State G inner.State} {r : Option R}
    (hr : (groupGet (f := f) g q).run ctx s = .ok r) :
    (s.get g = none ∧ r = none) ∨ ∃ st r', s.get g = some st ∧ q.run ctx st = .ok r' ∧ r = some r' := by
  simp only [run] at hr
  cases hg : OrderedMap.get s g with
  | none =>
    rw [hg] at hr
    cases hr
    exact .inl ⟨rfl,rfl⟩
  | some st =>
    rw [hg] at hr
    change (q.run ctx st).map some = .ok r at hr
    cases ho : q.run ctx st with
    | error x =>
      rw [ho] at hr
      cases hr
    | ok r' =>
      rw [ho] at hr
      cases hr
      exact .inr ⟨st,r',rfl,ho,rfl⟩

theorem items_mentioned {In R : Type} {e : UnregisteredIndex In} (q : Query Out e R) {s : e.State}
    (h : e.Mentions A s) {r : R} (hr : q.run ctx s = .ok r) : ∀ it ∈ q.items r, A it.id := by
  induction q with
  | hashEq key =>
    cases hr
    exact items_of_set (fun set hs => h key set hs)
  | btreeEq key =>
    cases hr
    exact items_of_set (fun set hs => h key set hs)
  | btreeMax =>
    cases hr
    exact items_of_extremes h _
  | btreeMin =>
    cases hr
    exact items_of_extremes h _
  | btreeMax1 => exact item_of_extreme1 h hr
  | btreeMin1 => exact item_of_extreme1 h hr
  | btreeRange low high limit =>
    cases hr
    exact items_of_range h low high limit
  | uniqueEq key =>
    cases hr
    exact item_of_holder h key
  | premapGet q ih => exact ih h hr
  | @groupGet In G R _ _ f inner g q ih =>
    rcases run_groupGet hr with ⟨_,rfl⟩ | ⟨st,r',hg,ho,rfl⟩
    · simp [items]
    · exact ih (h g st hg) ho
  | zipHead q ih => exact ih h.1 hr
  | zipTail q ih => exact ih h.2 hr
  | _ => simp [items]

end Query

section Collections

variable {T : Type} {A : Id → Prop} {E : Exception T → Prop} {u : Update T} {ctx : IndexContext T}

def RegisteredIndex.Mentions (A : Id → Prop) (ix : RegisteredIndex T) : Prop := ix.expr.Mentions A ix.state

structure Prepared.Confined (A : Id → Prop) (E : Exception T → Prop) (p : Prepared T) : Prop where
  state : p.expr.Mentions A p.state
  hook : Keeps (p.expr.Mentions A) E (fun _ => True) p.hook

namespace RegisteredIndex

theorem receiveAll_mentions (hA : Rebuilds A) (ctx : IndexContext T) {items : List (Id × T)} (hi : ∀ p ∈ items, A p.1)
    {ix : RegisteredIndex T} (h : ix.Mentions A) : (receiveAll ctx items ix).state.Mentions A := by
  have hk : Keeps (RegisteredIndex.Mentions A) (fun _ => True) (fun _ => True) (receiveAll ctx items) := by
    clear h
    induction items with
    | nil => exact .pure trivial
    | cons p rest ih =>
      refine Keeps.bind (A := fun _ => True) ?_ (fun _ _ => ih (fun q hq => hi q (List.mem_cons_of_mem _ hq)))
      intro ix h
      have hr := (ix.expr.confined T hA).deliver ctx (u := .add p.1 p.2) (hi p (by simp)) ix.state h
      unfold receive
      generalize (ix.expr.index T).deliver ctx (.add p.1 p.2) ix.state = o at hr
      cases hr with
      | returned _ hs => exact .returned trivial hs
      | thrown _ hs => exact .thrown trivial hs
  exact (hk ix h).state

end RegisteredIndex

namespace Collection

theorem collectHooks_confined (hA : Rebuilds A) (hu : u.Takes A) {ixs : List (RegisteredIndex T)}
    (h : ∀ ix ∈ ixs, ix.Mentions A) :
    (∃ x ixs', collectHooks ctx u ixs = .error (x,ixs') ∧ Blames ctx u.id x ∧ ∀ ix ∈ ixs', ix.Mentions A) ∨
    ∃ ps, collectHooks ctx u ixs = .ok ps ∧ ∀ p ∈ ps, p.Confined A (Blames ctx u.id) := by
  induction ixs with
  | nil => exact .inr ⟨[],rfl,by simp⟩
  | cons ix rest ih =>
    obtain ⟨hix,hrest⟩ := List.forall_mem_cons.mp h
    have ho := (ix.expr.confined T hA).onUpdate ctx u hu ix.state hix
    simp only [collectHooks]
    generalize (ix.expr.index T).onUpdate ctx u ix.state = o at ho
    cases ho with
    | thrown hx hs => exact .inl ⟨_,_,rfl,hx,List.forall_mem_cons.mpr ⟨hs,hrest⟩⟩
    | returned hh hs =>
      rcases ih hrest with ⟨x,ixs',he,hx,hm⟩ | ⟨ps,he,hps⟩
      · rw [he]
        exact .inl ⟨_,_,rfl,hx,List.forall_mem_cons.mpr ⟨hs,hm⟩⟩
      · rw [he]
        exact .inr ⟨_,rfl,List.forall_mem_cons.mpr ⟨⟨hs,hh⟩,hps⟩⟩

theorem runHooks_confined (u : Update T) {ps : List (Prepared T)} (h : ∀ p ∈ ps, p.Confined A E) :
    (runHooks u ps).Meets (fun ixs => ∀ ix ∈ ixs, ix.Mentions A) E (fun _ => True) := by
  induction ps with
  | nil => exact .returned trivial (by simp)
  | cons p ps ih =>
    obtain ⟨hp,hps⟩ := List.forall_mem_cons.mp h
    have ho := hp.hook p.state hp.state
    simp only [runHooks]
    generalize p.hook p.state = o at ho
    cases ho with
    | returned _ hs => exact (ih hps).mapState (fun _ hm => List.forall_mem_cons.mpr ⟨hs,hm⟩)
    | thrown hx hs =>
      refine .thrown hx (List.forall_mem_cons.mpr ⟨hs,?_⟩)
      intro ix hix
      obtain ⟨q,hq,rfl⟩ := List.mem_map.mp hix
      exact (hps q hq).state

variable [JsValue T]

theorem propagateUpdate_confined (hA : Rebuilds A) (hu : u.Takes A) {c : Collection T} (h : ∀ ix ∈ c.indexes, ix.Mentions A) :
    (propagateUpdate u c).Meets (fun c' => ∀ ix ∈ c'.indexes, ix.Mentions A) (Blames c.context u.id) (fun _ => True) := by
  unfold propagateUpdate
  rcases collectHooks_confined hA hu h with ⟨x,ixs',he,hx,hm⟩ | ⟨ps,he,hps⟩
  · rw [he]
    exact .thrown hx hm
  · rw [he]
    exact (runHooks_confined u hps).mapState (fun _ hm => hm)

theorem propagateUpdate_blames {c c' : Collection T} {x : Exception T} (h : propagateUpdate u c = .thrown x c') :
    Blames c.context u.id x := by
  have hc := propagateUpdate_confined (A := fun _ => True) (fun _ _ _ _ _ => trivial) (Update.takes_of_id trivial)
    (fun ix (_ : ix ∈ c.indexes) => ix.expr.mentions_any ix.state) (u := u)
  rw [h] at hc
  cases hc with
  | thrown hx _ => exact hx

end Collection

end Collections

end ComposableIndexes
