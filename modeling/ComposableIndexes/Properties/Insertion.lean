import ComposableIndexes.Abstract.Answers
import ComposableIndexes.Properties.Maintenance

namespace ComposableIndexes

-- The sketch of an index whose items were all added under new ids.
noncomputable def Sketch.fresh {T : Type} (e : UnregisteredIndex T) (S : Contents T) (values : List T) : Sketch T :=
  ⟨e,fun i => e.account.ledger.addOption (S i) e.account.ledger.blank,
    values.foldr e.account.trail.enter e.account.trail.blank⟩

theorem Sketch.book_fresh {T : Type} {e : UnregisteredIndex T} {S : Contents T} {values : List T} {id : Id}
    (hS : S id.bits = none) (v : T) :
    (Sketch.fresh e S values).book (.add id v) = Sketch.fresh e (S.set id.bits v) (v :: values) := by
  have hpages : e.account.book (.add id v) (fun i => e.account.ledger.addOption (S i) e.account.ledger.blank) =
      fun i => e.account.ledger.addOption (S.set id.bits v i) e.account.ledger.blank := by
    funext i
    rw [Account.book,Function.update_apply,PartialMap.set_apply]
    have hid : (Update.add id v).id.bits = id.bits := rfl
    rw [hid,hS]
    split_ifs
    · rfl
    · rfl
  exact congrArg (fun V => Sketch.mk e V ((v :: values).foldr e.account.trail.enter e.account.trail.blank)) hpages

theorem Sketch.fresh_mark_perm {T : Type} {e : UnregisteredIndex T} {values values' : List T} (h : values.Perm values') :
    values.foldr e.account.trail.enter e.account.trail.blank =
      values'.foldr e.account.trail.enter e.account.trail.blank :=
  h.foldr_eq' (fun a _ b _ m => e.account.trail.enter_comm b a m) _

namespace Collection

variable {T : Type} [JsValue T] {c : Collection T} {e : UnregisteredIndex T} {values : List T}

def insertCalls (e : UnregisteredIndex T) (values : List T) : List (Call T) := .registerIndex e :: values.map .add

def inserted (e : UnregisteredIndex T) (values : List T) : Collection T :=
  (Procedure.play Call.exec (insertCalls e values) new).2

-- After `n` additions the ids `1` to `n` are in use, the last of which is `0` when `n` is `2 ^ 64`.
structure Inserted (c : Collection T) (e : UnregisteredIndex T) (values : List T) : Prop where
  last : c.last.bits = BitVec.ofNat 64 values.length
  used : ∀ i v, c.contents i = some v → ∃ m < values.length, i = BitVec.ofNat 64 (m + 1)
  stored : c.contents.values = ↑values
  sketch : c.Sketched [.fresh e c.contents values]

omit [JsValue T] in
theorem nextId_after {n : ℕ} (h : c.last.bits = BitVec.ofNat 64 n) : c.nextId.bits = BitVec.ofNat 64 (n + 1) := by
  have he : c.nextId.bits = c.last.bits + 1 := rfl
  rw [he,h]
  bv_omega

theorem Inserted.nextId_free (h : c.Inserted e values) (hlen : values.length < 2 ^ 64) :
    c.contents c.nextId.bits = none := by
  rw [Option.eq_none_iff_forall_ne_some]
  intro v hv
  obtain ⟨m,hm,he⟩ := h.used _ v hv
  have hn := congrArg BitVec.toNat ((nextId_after h.last).symm.trans he)
  simp only [BitVec.toNat_ofNat] at hn
  omega

theorem Inserted.add (h : c.Inserted e values) (hlen : values.length < 2 ^ 64) {v : T} (hv : JsValue.Defined v) :
    ∃ c', add v c = .returned c.nextId c' ∧ c'.Inserted e (v :: values) := by
  have hfree := h.nextId_free hlen
  have hnext := nextId_after h.last
  obtain ⟨c',hr,hlast,hS,hs⟩ := h.sketch.add hv
  refine ⟨c',hr,by rw [hlast,hnext,List.length_cons],?_,?_,?_⟩
  · intro i w hi
    rw [hS,PartialMap.set_apply] at hi
    split_ifs at hi with he
    · exact ⟨values.length,by simp,he.trans hnext⟩
    · obtain ⟨m,hm,hi'⟩ := h.used i w hi
      exact ⟨m,by simp; omega,hi'⟩
  · rw [hS,PartialMap.values_set_of_none hfree,h.stored]
    rfl
  · rw [hS,← Sketch.book_fresh hfree]
    exact hs

theorem Inserted.addAll (h : c.Inserted e values) (more : List T) (hlen : values.length + more.length ≤ 2 ^ 64)
    (hv : ∀ v ∈ more, JsValue.Defined v) :
    (Procedure.play Call.exec (more.map .add) c).2.Inserted e (more.reverse ++ values) := by
  induction more generalizing c values with
  | nil => exact h
  | cons v more ih =>
    rw [List.length_cons] at hlen
    obtain ⟨c',hr,h'⟩ := h.add (by omega) (hv v (by simp))
    have hstep : (Call.add v).exec c = .returned () c' := Procedure.bind_returned hr
    have hmore := ih h' (by rw [List.length_cons]; omega) (fun w hw => hv w (by simp [hw]))
    rw [List.reverse_cons,List.append_assoc,List.singleton_append]
    simpa only [List.map_cons,Procedure.play,hstep,Outcome.state] using hmore

theorem inserted_spec (hn : e.NoUnique) (hlen : values.length ≤ 2 ^ 64) (hv : ∀ v ∈ values, JsValue.Defined v) :
    (inserted e values).Inserted e values.reverse := by
  obtain ⟨ix,hr,hs⟩ := sketched_new.registerIndex hn
  have hstep : (Call.registerIndex e).exec (new : Collection T) =
      .returned () { new with indexes := new.indexes ++ [ix] } := by
    simp only [Call.exec,hr]
  have h : Inserted { (new : Collection T) with indexes := new.indexes ++ [ix] } e [] :=
    ⟨rfl,by simp [contents,new],PartialMap.values_empty,hs⟩
  have hall := h.addAll values (by simpa using hlen) hv
  rw [List.append_nil] at hall
  simpa only [inserted,insertCalls,Procedure.play,hstep,Outcome.state] using hall

def SameValues {T : Type} (items items' : List (Item T)) : Prop := (items.map Item.value).Perm (items'.map Item.value)

def SameInserted (e : UnregisteredIndex T) (values values' : List T) : Prop :=
  ∃ ix ix', (inserted e values).indexes = [ix] ∧ (inserted e values').indexes = [ix'] ∧ ix.expr = e ∧
    RegisteredIndex.AgreesUpTo SameValues (inserted e values).context (inserted e values').context ix ix'

theorem renames_of_contents {c c' : Collection T} {σ : Equiv.Perm (BitVec 64)} (h : ∀ i, c'.contents (σ i) = c.contents i) :
    Renames σ c.context c'.context SameValues := by
  intro ids ids' hp
  have hvalue (id : Id) : (c'.context.item (id.rename σ)).value = (c.context.item id).value := by
    have hget : c'.context.get (id.rename σ) = c.context.get id := by
      rw [context_get,context_get,← h id.bits]
      rfl
    exact hget
  have hmap : ids.map (fun id => (c.context.item id).value) =
      (ids.map (Id.rename σ)).map (fun id => (c'.context.item id).value) := by
    rw [List.map_map]
    exact List.map_congr_left (fun id _ => (hvalue id).symm)
  rw [SameValues,List.map_map,List.map_map]
  exact (List.Perm.of_eq hmap).trans (hp.map _)

theorem insertion_order_irrelevant {T : Type} [JsValue T] {e : UnregisteredIndex T} (hn : e.NoUnique) (hl : e.Lawful)
    {values values' : List T} (hp : values.Perm values') (hv : ∀ v ∈ values, JsValue.Defined v)
    (hlen : values.length ≤ 2 ^ 64) : SameInserted e values values' := by
  have h := inserted_spec hn hlen hv
  have h' := inserted_spec hn (hp.length_eq ▸ hlen) (fun v hm => hv v (hp.mem_iff.mpr hm))
  have hrev : values.reverse.Perm values'.reverse := (values.reverse_perm.trans hp).trans values'.reverse_perm.symm
  obtain ⟨σ,hσ⟩ : ∃ σ : Equiv.Perm (BitVec 64),
      ∀ i, (inserted e values').contents (σ i) = (inserted e values).contents i := by
    refine PartialMap.exists_rename ?_
    rw [h.stored,h'.stored]
    exact Multiset.coe_eq_coe.mpr hrev
  have hd := h.sketch.depicts
  have hd' := h'.sketch.depicts
  rw [Sketch.fresh,← Sketch.fresh_mark_perm hrev] at hd'
  generalize hix : (inserted e values).indexes = ixs at hd
  generalize hix' : (inserted e values').indexes = ixs' at hd'
  cases hd with
  | @cons _ ix _ _ hdix hnil =>
    cases hnil
    cases hd' with
    | @cons _ ix' _ _ hdix' hnil' =>
      cases hnil'
      obtain ⟨s,log,rfl,_⟩ := hdix.inv
      refine ⟨_,ix',hix,hix',rfl,?_⟩
      refine hdix.agreesUpTo hdix' hn hl (renames_of_contents hσ) ?_
      intro i
      rw [hσ]

theorem evens_and_odds_in_any_order : SameInserted parityAndOrder [5,6,8] [8,5,6] :=
  insertion_order_irrelevant (e := parityAndOrder) ⟨trivial,trivial,trivial⟩ ⟨trivial,trivial,trivial⟩ (by decide)
    (by decide) (by decide)

section Wrap

def hashed (ix : HashIndex.State ℕ) (log : List (Update ℕ)) : RegisteredIndex ℕ := ⟨.hashIndex,ix,log⟩

variable {c : Collection ℕ} {ix : HashIndex.State ℕ} {log : List (Update ℕ)}

theorem add_hashed (h : c.indexes = [hashed ix log]) (v : ℕ) : ((Call.add v).exec c).state =
    ⟨c.nextId,c.store.set c.nextId v,[hashed (HashIndex.add c.nextId v ix) (log ++ [.add c.nextId v])]⟩ := by
  obtain ⟨last,store,indexes⟩ := c
  obtain rfl : indexes = [hashed ix log] := h
  rfl

theorem addAll_hashed (h : c.indexes = [hashed ix log]) {k : ℕ} (values : List ℕ) (hk : k ∉ values) :
    ∃ ix' log', (Procedure.play Call.exec (values.map .add) c).2.indexes = [hashed ix' log'] ∧
      ix'.get k = ix.get k ∧
      (Procedure.play Call.exec (values.map .add) c).2.last.bits = c.last.bits + BitVec.ofNat 64 values.length := by
  induction values generalizing c ix log with
  | nil => exact ⟨ix,log,h,rfl,(BitVec.add_zero _).symm⟩
  | cons v values ih =>
    rw [List.mem_cons,not_or] at hk
    have hstep := add_hashed h v
    obtain ⟨ix',log',hix,hget,hlast⟩ := ih (congrArg Collection.indexes hstep) hk.2
    refine ⟨ix',log',hix,hget.trans (HashIndex.get_add_of_ne _ _ hk.1),hlast.trans ?_⟩
    have hnext : ((Call.add v).exec c).state.last.bits = c.last.bits + 1 := congrArg (fun c => c.last.bits) hstep
    rw [hnext,List.length_cons]
    bv_omega

theorem items_of_singleton {ctx : IndexContext ℕ} {set : IdSet} {i : BitVec 64} (h : set.toSet = {i}) :
    HashIndex.items ctx (some set) = [ctx.item (Id.fromLong ⟨i,true⟩)] := by
  have hv : set.values = [Id.fromLong ⟨i,true⟩] := by
    rw [← List.perm_singleton,List.perm_ext_iff_of_nodup set.values_nodup (List.nodup_singleton _)]
    intro id
    rw [IdSet.mem_values,h,Set.mem_singleton_iff,List.mem_singleton]
    constructor
    · rintro ⟨hu,hi⟩
      exact Id.eq_of_bits hu rfl hi
    · rintro rfl
      exact ⟨rfl,rfl⟩
  rw [HashIndex.items,hv,List.map_singleton]

theorem inserted_append (e : UnregisteredIndex ℕ) (values : List ℕ) (v : ℕ) :
    inserted e (values ++ [v]) = ((Call.add v).exec (inserted e values)).state := by
  have hplay (calls : List (Call ℕ)) (c : Collection ℕ) : (Procedure.play Call.exec (calls ++ [.add v]) c).2 =
      ((Call.add v).exec (Procedure.play Call.exec calls c).2).state := by
    induction calls generalizing c with
    | nil => rfl
    | cons call calls ih => exact ih (call.exec c).state
  rw [inserted,insertCalls,List.map_append,List.map_singleton,← List.cons_append]
  exact hplay _ _

theorem eq_five_after (h : c.indexes = [hashed ix log]) (hlast : c.last.bits = 0) (v : ℕ) {set : IdSet}
    (hset : (HashIndex.add c.nextId v ix).get 5 = some set) (hid : set.toSet = {1}) :
    ∃ ix' log', ((Call.add v).exec c).state.indexes = [hashed ix' log'] ∧
      HashIndex.eq ((Call.add v).exec c).state.context ix' 5 = [⟨Id.fromLong ⟨1,true⟩,some v⟩] := by
  have hnext : c.nextId.bits = 1 := nextId_after (n := 0) hlast
  have hget : ((Call.add v).exec c).state.get (Id.fromLong ⟨1,true⟩) = some v := by
    rw [add_hashed h v]
    refine get_of_contents ?_ rfl
    refine (congrFun (find_set_eq c c.nextId v) 1).trans ?_
    rw [PartialMap.set_apply,if_pos hnext.symm]
  refine ⟨_,_,congrArg Collection.indexes (add_hashed h v),?_⟩
  rw [HashIndex.eq,hset,items_of_singleton hid]
  exact congrArg (fun value => [Item.mk (Id.fromLong ⟨1,true⟩) value]) hget

-- With `2 ^ 64 - 1` values between them, two values get the same id.
theorem inserted_before_wrap {values : List ℕ} (h : 5 ∉ values) (hlen : values.length + 1 = 2 ^ 64) (v : ℕ) :
    ∃ ix log, (inserted .hashIndex (v :: values)).indexes = [hashed ix log] ∧
      ix.get 5 = (HashIndex.add (Id.fromLong ⟨1,true⟩) v OrderedMap.empty).get 5 ∧
      (inserted .hashIndex (v :: values)).last.bits = 0 := by
  obtain ⟨ix,log,hix,hget,hlast⟩ := addAll_hashed (c := inserted .hashIndex [v]) rfl values h
  refine ⟨ix,log,hix,hget,hlast.trans ?_⟩
  have hone : (inserted .hashIndex [v]).last.bits = 1 := rfl
  rw [hone]
  bv_omega

theorem eq_five_of_first {values : List ℕ} (h : 5 ∉ values) (hlen : values.length + 1 = 2 ^ 64) {v : ℕ} (hv : v ≠ 5) :
    ∃ ix log, (inserted .hashIndex (5 :: values ++ [v])).indexes = [hashed ix log] ∧
      HashIndex.eq (inserted .hashIndex (5 :: values ++ [v])).context ix 5 = [⟨Id.fromLong ⟨1,true⟩,some v⟩] := by
  obtain ⟨ix,log,hix,hget,hlast⟩ := inserted_before_wrap h hlen 5
  rw [inserted_append]
  have hset := ((HashIndex.get_add_of_ne (inserted .hashIndex (5 :: values)).nextId ix hv.symm).trans hget).trans
    (HashIndex.get_add_self _ _ _)
  refine eq_five_after hix hlast v hset ?_
  rw [OrderedMap.get_empty,Option.getD_none,IdSet.toSet_set,IdSet.toSet_new]
  exact insert_empty_eq _

theorem eq_five_of_last {values : List ℕ} (h : 5 ∉ values) (hlen : values.length + 1 = 2 ^ 64) {v : ℕ} (hv : v ≠ 5) :
    ∃ ix log, (inserted .hashIndex (v :: values ++ [5])).indexes = [hashed ix log] ∧
      HashIndex.eq (inserted .hashIndex (v :: values ++ [5])).context ix 5 = [⟨Id.fromLong ⟨1,true⟩,some 5⟩] := by
  obtain ⟨ix,log,hix,hget,hlast⟩ := inserted_before_wrap h hlen v
  rw [inserted_append]
  refine eq_five_after hix hlast 5 (HashIndex.get_add_self _ _ _) ?_
  rw [hget,HashIndex.get_add_of_ne _ _ hv.symm,IdSet.toSet_set,nextId_after (n := 0) hlast,OrderedMap.get_empty,
    Option.getD_none,IdSet.toSet_new]
  exact insert_empty_eq _

theorem hashed_eq_perm {ctx ctx' : IndexContext ℕ} {R : List (Item ℕ) → List (Item ℕ) → Prop} {ix' : HashIndex.State ℕ}
    {log' : List (Update ℕ)} (h : RegisteredIndex.AgreesUpTo R ctx ctx' (hashed ix log) (hashed ix' log')) (k : ℕ) :
    R (HashIndex.eq ctx ix k) (HashIndex.eq ctx' ix' k) := by
  cases h with
  | mk h => exact h (.hashEq k)

end Wrap

theorem insertion_order_shows_after_wrap : ¬∀ values values' : List ℕ, values.Perm values' →
    (∀ v ∈ values, JsValue.Defined v) → SameInserted .hashIndex values values' := by
  intro hall
  obtain ⟨values,h,hlen⟩ : ∃ values : List ℕ, 5 ∉ values ∧ values.length + 1 = 2 ^ 64 := by
    refine ⟨List.replicate (2 ^ 64 - 1) 7,?_,?_⟩
    · intro hm
      exact absurd (List.eq_of_mem_replicate hm) (by decide)
    · rw [List.length_replicate]
      rfl
  have hp (a b : ℕ) : (a :: values ++ [b]).Perm (b :: a :: values) := List.perm_append_singleton b (a :: values)
  have hswap : (5 :: values ++ [7]).Perm (7 :: values ++ [5]) := ((hp 5 7).trans (.swap 5 7 _)).trans (hp 7 5).symm
  obtain ⟨ix,ix',hix,hix',_,hsame⟩ := hall _ _ hswap (fun _ _ => rfl)
  obtain ⟨s,log,hs,heq⟩ := eq_five_of_first (v := 7) h hlen (by decide)
  obtain ⟨s',log',hs',heq'⟩ := eq_five_of_last (v := 7) h hlen (by decide)
  rw [hs,List.singleton_inj] at hix
  rw [hs',List.singleton_inj] at hix'
  subst hix hix'
  have hvalues := hashed_eq_perm hsame 5
  rw [SameValues,heq,heq'] at hvalues
  exact absurd hvalues (by decide)

end Collection

end ComposableIndexes
