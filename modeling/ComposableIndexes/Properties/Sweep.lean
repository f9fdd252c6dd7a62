import ComposableIndexes.Properties.Halves
import ComposableIndexes.Properties.Convergence

namespace ComposableIndexes

namespace Cursor

variable {T : Type} {store : IdMap T} {cursor cursor' : Cursor} {key id : Id} {high : BitVec 32}

def keysAt (store : IdMap T) (high : BitVec 32) : List (BitVec 32) := (store.innerAt high).keys

def idsAt (high : BitVec 32) (lows : List (BitVec 32)) : List Id :=
  lows.map (fun low => Id.fromLong (Long.fromBits low high true))

def blocks (store : IdMap T) (highs : List (BitVec 32)) : List Id := highs.flatMap (fun high => idsAt high (keysAt store high))

-- The ids that the iterator still yields when the store stays as it is.
def pending (store : IdMap T) (cursor : Cursor) : List Id :=
  cursor.inner.elim [] (fun p => idsAt p.1 p.2) ++ blocks store cursor.outer

theorem pending_start (store : IdMap T) : (start store).pending store = store.entries.map Prod.fst := by
  have hkeys : ∀ p ∈ store.map.entries, idsAt p.1 (keysAt store p.1) =
      (p.2.entries.map (fun q => (Id.fromLong (Long.fromBits q.1 p.1 true),q.2))).map Prod.fst := by
    rintro ⟨high,m⟩ hp
    simp [keysAt,idsAt,IdMap.innerAt_of_get ((store.map.mem_entries high m).mp hp),OrderedMap.keys]
  rw [IdMap.entries,List.map_flatMap,pending,start,Option.elim_none,List.nil_append,blocks,OrderedMap.keys,List.flatMap_map]
  exact List.flatMap_congr hkeys

theorem elim_keys (store : IdMap T) (high : BitVec 32) : (store.map.get high).elim [] OrderedMap.keys = keysAt store high := by
  rw [keysAt,IdMap.innerAt]
  cases store.map.get high <;> rfl

theorem nextOuter_pending (highs : List (BitVec 32)) : blocks store highs =
    (nextOuter store highs).elim [] (fun p => p.1 :: p.2.pending store) := by
  induction highs with
  | nil => rfl
  | cons high highs ih =>
    rw [blocks,List.flatMap_cons,nextOuter,elim_keys]
    cases hk : keysAt store high with
    | nil =>
      simp only [idsAt,List.map_nil,List.nil_append]
      exact ih
    | cons low lows => rfl

theorem pending_eq (store : IdMap T) (cursor : Cursor) : cursor.pending store =
    (cursor.next store).elim [] (fun p => p.1 :: p.2.pending store) := by
  obtain ⟨outer,inner⟩ := cursor
  match inner with
  | some (high,low :: lows) => rfl
  | some (high,[]) => exact nextOuter_pending outer
  | none => exact nextOuter_pending outer

theorem next_eq_none_of_not_pending (h : ¬cursor.Pending) : cursor.next store = none := by
  obtain ⟨outer,inner⟩ := cursor
  obtain ⟨ho,hi⟩ := not_or.mp h
  obtain rfl : outer = [] := not_not.mp ho
  match inner with
  | some (high,low :: lows) => exact absurd ⟨high,low,lows,rfl⟩ hi
  | some (high,[]) => rfl
  | none => rfl

theorem next_of_pending {ids : List Id} (hv : cursor.Valid store) (h : cursor.pending store = id :: ids) :
    ∃ cursor', cursor.next store = some (id,cursor') ∧ At store id cursor' ∧ cursor'.pending store = ids := by
  by_cases hp : cursor.Pending
  · obtain ⟨id',cursor',hn,hat⟩ := next_at hv hp
    have he := pending_eq store cursor
    rw [hn,Option.elim_some,h] at he
    obtain ⟨rfl,rfl⟩ := List.cons.inj he
    exact ⟨cursor',hn,hat,rfl⟩
  · have he := pending_eq store cursor
    rw [next_eq_none_of_not_pending hp,h] at he
    cases he

theorem next_of_done (h : cursor.pending store = []) : cursor.next store = none := by
  have he := pending_eq store cursor
  rw [h] at he
  cases hn : cursor.next store with
  | none => rfl
  | some p =>
    rw [hn] at he
    cases he

section Set

theorem set_in_place {v : T} (h : store.find key.bits = some v) (cursor : Cursor) : cursor.set store key = cursor := by
  obtain ⟨m,hm,hv⟩ := Option.bind_eq_some_iff.mp h
  have hm' : store.map.get key.asLong.high = some m := hm
  have hlow : (m.get key.asLong.low).isSome = true := Option.isSome_of_eq_some hv
  obtain ⟨outer,inner⟩ := cursor
  have houter : store.map.pendingSet key.asLong.high outer = outer := if_pos (Option.isSome_of_eq_some hm')
  have hinner (p : BitVec 32 × List (BitVec 32)) : (if p.1 = key.asLong.high then
      (p.1,((store.map.get p.1).getD OrderedMap.empty).pendingSet key.asLong.low p.2) else p) = p := by
    split_ifs with hp
    · have hset : m.pendingSet key.asLong.low p.2 = p.2 := if_pos hlow
      rw [hp,hm',Option.getD_some,hset,← hp]
    · rfl
  simp only [set,houter,hinner,Option.map_id']

theorem keysAt_set {v : T} (h : store.find key.bits = some v) (w : T) (high : BitVec 32) :
    keysAt (store.set key w) high = keysAt store high := by
  rw [keysAt,IdMap.innerAt_set]
  split_ifs with hk
  · have hhas : (store.innerAt high).has key.asLong.low = true := by
      rw [OrderedMap.has_eq,hk,← IdMap.find_eq_innerAt,h,Option.isSome_some]
    rw [OrderedMap.keys_set_of_has hhas,keysAt]
  · rfl

theorem pending_set {v : T} (h : store.find key.bits = some v) (w : T) (cursor : Cursor) :
    (cursor.set store key).pending (store.set key w) = cursor.pending store := by
  rw [set_in_place h,pending,pending,blocks,blocks]
  simp only [keysAt_set h]

end Set

section Delete

theorem keysAt_delete (store : IdMap T) (key : Id) (high : BitVec 32) : keysAt (store.delete key) high =
    if high = key.asLong.high then (keysAt store high).filter (fun low => low ≠ key.asLong.low) else keysAt store high := by
  rw [keysAt,IdMap.innerAt_delete]
  split_ifs with hk
  · exact OrderedMap.keys_delete _ _
  · rfl

theorem filter_idsAt (key : Id) (high : BitVec 32) (lows : List (BitVec 32)) :
    (idsAt high lows).filter (fun id => id.bits ≠ key.bits) =
      if high = key.asLong.high then idsAt high (lows.filter (fun low => low ≠ key.asLong.low)) else idsAt high lows := by
  have hbits (low : BitVec 32) : (Id.fromLong (Long.fromBits low high true)).bits = key.bits ↔
      high = key.asLong.high ∧ low = key.asLong.low := by
    have hhigh : (Long.mk (Id.fromLong (Long.fromBits low high true)).bits true).high = high := Long.high_fromBits low high true
    have hlow : (Long.mk (Id.fromLong (Long.fromBits low high true)).bits true).low = low := Long.low_fromBits low high true
    rw [IdMap.halves_eq_iff,hhigh,hlow]
    rfl
  rw [idsAt,List.filter_map]
  split_ifs with hk
  · rw [idsAt]
    refine congrArg _ (List.filter_congr ?_)
    intro low _
    have hlow : (Id.fromLong (Long.fromBits low high true)).bits = key.bits ↔ low = key.asLong.low := by
      rw [hbits low,and_iff_right hk]
    rw [Function.comp_apply,decide_eq_decide]
    exact not_congr hlow
  · refine congrArg _ (List.filter_eq_self.mpr ?_)
    intro low _
    rw [Function.comp_apply,decide_eq_true_iff]
    exact fun he => hk ((hbits low).mp he).1

theorem idsAt_delete (store : IdMap T) (key : Id) (high : BitVec 32) : idsAt high (keysAt (store.delete key) high) =
    (idsAt high (keysAt store high)).filter (fun id => id.bits ≠ key.bits) := by
  rw [filter_idsAt,keysAt_delete]
  split_ifs with hk
  · rfl
  · rfl

theorem blocks_delete (store : IdMap T) (key : Id) (highs : List (BitVec 32)) : blocks (store.delete key) highs =
    (blocks store highs).filter (fun id => id.bits ≠ key.bits) := by
  simp only [blocks,idsAt_delete,List.filter_flatMap]

theorem blocks_skip {high : BitVec 32} (h : keysAt store high = []) (highs : List (BitVec 32)) :
    blocks store (OrderedMap.pendingDelete high highs) = blocks store highs := by
  induction highs with
  | nil => rfl
  | cons high' highs ih =>
    by_cases hk : high' = high
    · have hskip : OrderedMap.pendingDelete high (high' :: highs) = OrderedMap.pendingDelete high highs := by
        simp [OrderedMap.pendingDelete,hk]
      have hblock : idsAt high' (keysAt store high') = [] := by rw [hk,h,idsAt,List.map_nil]
      rw [hskip,ih,blocks,blocks,List.flatMap_cons,hblock,List.nil_append]
    · have hkeep : OrderedMap.pendingDelete high (high' :: highs) = high' :: OrderedMap.pendingDelete high highs := by
        simp [OrderedMap.pendingDelete,hk]
      rw [blocks] at ih
      rw [hkeep,blocks,blocks,List.flatMap_cons,List.flatMap_cons,ih]
      rfl

theorem pending_delete_pruned (hv : cursor.Valid store) {m : OrderedMap (BitVec 32) T}
    (hm : store.map.get key.asLong.high = some m) (hs : (m.delete key.asLong.low).size = 0) :
    (cursor.delete store key).pending (store.delete key) = (cursor.pending store).filter (fun id => id.bits ≠ key.bits) := by
  have hnil : keysAt (store.delete key) key.asLong.high = [] := by
    rw [keysAt,IdMap.innerAt,delete_map_pruned hm hs,OrderedMap.get_delete,if_pos rfl]
    rfl
  have hgone (low : BitVec 32) : (m.delete key.asLong.low).get low = none := (OrderedMap.size_eq_zero_iff _).mp hs low
  rw [delete,hm]
  simp only [if_pos hs,pending]
  rw [blocks_skip hnil,blocks_delete,List.filter_append]
  refine congrArg (· ++ _) ?_
  cases hi : cursor.inner with
  | none => rfl
  | some p =>
    obtain ⟨high,lows⟩ := p
    obtain ⟨m',hm',hlows⟩ := hv.inner high lows hi
    rw [Option.elim_some,filter_idsAt,Option.filter_some]
    by_cases hk : high = key.asLong.high
    · rw [if_neg (by simp [hk]),if_pos hk]
      obtain rfl : high = key.asLong.high := hk
      obtain rfl : m' = m := Option.some.inj (hm'.symm.trans hm)
      have hall : lows.filter (fun low => low ≠ key.asLong.low) = [] := by
        rw [List.filter_eq_nil_iff]
        intro low hl hne
        have hg := hgone low
        rw [OrderedMap.get_delete,if_neg (by simpa using hne)] at hg
        have hsome := hlows low hl
        rw [hg] at hsome
        cases hsome
      rw [hall,idsAt,List.map_nil,Option.elim_none]
    · rw [if_pos (decide_eq_true hk),if_neg hk,Option.elim_some]

theorem pending_delete (hv : cursor.Valid store) (key : Id) :
    (cursor.delete store key).pending (store.delete key) = (cursor.pending store).filter (fun id => id.bits ≠ key.bits) := by
  cases hm : store.map.get key.asLong.high with
  | none =>
    have hinner : cursor.inner.elim [] (fun p => idsAt p.1 p.2) =
        (cursor.inner.elim [] (fun p => idsAt p.1 p.2)).filter (fun id => id.bits ≠ key.bits) := by
      cases hi : cursor.inner with
      | none => rfl
      | some p =>
        obtain ⟨m,hm',_⟩ := hv.inner p.1 p.2 hi
        have hk : p.1 ≠ key.asLong.high := by
          rintro hk
          rw [hk,hm] at hm'
          cases hm'
        rw [Option.elim_some,filter_idsAt,if_neg hk]
    rw [delete,hm]
    simp only [pending]
    rw [blocks_delete,List.filter_append,← hinner]
  | some m =>
    by_cases hs : (m.delete key.asLong.low).size = 0
    · exact pending_delete_pruned hv hm hs
    · rw [delete,hm]
      simp only [if_neg hs,pending]
      rw [blocks_delete,List.filter_append]
      refine congrArg (· ++ _) ?_
      cases hi : cursor.inner with
      | none => rfl
      | some p =>
        rw [Option.map_some,Option.elim_some,Option.elim_some,filter_idsAt]
        split_ifs with hk
        · rfl
        · rfl

end Delete

end Cursor

namespace Write

variable {T : Type} {S : Contents T} {w : Write T} {ws ws' : List (Write T)}

def InPlace : Contents T → List (Write T) → Prop
  | _, [] => True
  | S, w :: ws => (w.entry.2.isSome = true → (S w.key).isSome = true) ∧ InPlace (Function.update S w.entry.1 w.entry.2) ws

theorem finalAt_append (S : Contents T) (ws ws' : List (Write T)) : finalAt S (ws ++ ws') = finalAt (finalAt S ws) ws' := by
  rw [← foldl_finalAt,← foldl_finalAt,← foldl_finalAt,List.map_append,List.foldl_append]

theorem finalAt_cons (S : Contents T) (w : Write T) (ws : List (Write T)) :
    finalAt S (w :: ws) = finalAt (Function.update S w.entry.1 w.entry.2) ws := by
  rw [← foldl_finalAt,← foldl_finalAt,List.map_cons,List.foldl_cons]

theorem InPlace.absent (h : InPlace S ws) {i : BitVec 64} (hi : S i = none) : finalAt S ws i = none := by
  induction ws generalizing S with
  | nil => exact hi
  | cons w ws ih =>
    obtain ⟨hw,hws⟩ := h
    rw [finalAt_cons]
    refine ih hws ?_
    rw [Function.update_apply]
    split_ifs with hk
    · rw [Option.eq_none_iff_forall_ne_some]
      intro v hv
      have hs := hw (Option.isSome_of_eq_some hv)
      rw [Write.key,← hk,hi] at hs
      cases hs
    · exact hi

end Write

section Sweep

variable {T : Type} {f : Contents T → T → Id → List (Write T)}

def sweep (f : Contents T → T → Id → List (Write T)) : List Id → Contents T → List (Id × List (Write T))
  | [], _ => []
  | id :: ids, S =>
      match S id.bits with
      | none => sweep f ids S
      | some v => (id,f S v id) :: sweep f ids (Write.finalAt S (f S v id))

def sweptWrites (f : Contents T → T → Id → List (Write T)) (ids : List Id) (S : Contents T) : List (Write T) :=
  (sweep f ids S).flatMap Prod.snd

theorem sweep_sublist (f : Contents T → T → Id → List (Write T)) (ids : List Id) (S : Contents T) :
    ((sweep f ids S).map Prod.fst).Sublist ids := by
  induction ids generalizing S with
  | nil => exact List.Sublist.refl []
  | cons id ids ih =>
    rw [sweep]
    split
    · exact (ih S).cons id
    · exact (ih _).cons_cons id

theorem sweptWrites_absent (hp : ∀ S v id, S id.bits = some v → Write.InPlace S (f S v id)) (ids : List Id) {S : Contents T}
    {i : BitVec 64} (hi : S i = none) : Write.finalAt S (sweptWrites f ids S) i = none := by
  induction ids generalizing S with
  | nil => exact hi
  | cons id ids ih =>
    rw [sweptWrites,sweep]
    split
    · exact ih hi
    · rename_i v hv
      rw [List.flatMap_cons,Write.finalAt_append]
      exact ih ((hp S v id hv).absent hi)

theorem sweep_visits (hp : ∀ S v id, S id.bits = some v → Write.InPlace S (f S v id)) {ids : List Id} {S : Contents T}
    {id : Id} (hm : id ∈ ids) (hi : (Write.finalAt S (sweptWrites f ids S) id.bits).isSome = true) :
    id ∈ (sweep f ids S).map Prod.fst := by
  induction ids generalizing S with
  | nil => cases hm
  | cons id' ids ih =>
    rw [sweptWrites,sweep] at hi
    rw [sweep]
    cases hv : S id'.bits with
    | none =>
      rw [hv] at hi
      refine ih ((List.mem_cons.mp hm).resolve_left ?_) hi
      rintro rfl
      have hgone := sweptWrites_absent hp ids hv
      rw [sweptWrites] at hgone
      rw [hgone] at hi
      cases hi
    | some v =>
      rw [hv,List.flatMap_cons,Write.finalAt_append] at hi
      rw [List.map_cons]
      rcases List.mem_cons.mp hm with rfl | hm'
      · exact List.mem_cons_self
      · exact List.mem_cons_of_mem id' (ih hm' hi)

end Sweep

namespace Collection

variable {T : Type} [JsValue T]

def writeAll : List (Write T) → Procedure (Exception T) (Collection T) Unit
  | [] => pure ()
  | w :: ws => w.call.exec >>= fun _ => writeAll ws

theorem writeAll_append {R : Type} (ws ws' : List (Write T)) (next : Procedure (Exception T) (Collection T) R) (c : Collection T) :
    (writeAll (ws ++ ws') >>= fun _ => next) c = (writeAll ws >>= fun _ => writeAll ws' >>= fun _ => next) c := by
  induction ws generalizing c with
  | nil => rfl
  | cons w ws ih =>
    rw [List.cons_append,writeAll,writeAll]
    cases hr : w.call.exec c with
    | thrown e c' => rw [Procedure.bind_thrown (Procedure.bind_thrown hr),Procedure.bind_thrown (Procedure.bind_thrown hr)]
    | returned a c' =>
      have hc := ih c'
      rw [Procedure.bind_apply,Procedure.bind_apply] at hc
      rw [Procedure.bind_apply,Procedure.bind_returned hr,Procedure.bind_apply,Procedure.bind_returned hr]
      exact hc

end Collection

namespace Live

variable {T : Type} [JsValue T] {c : Collection T} {live live' : Live T} {ids : List Id} {w : Write T} {ws : List (Write T)}
  {f : Contents T → T → Id → List (Write T)}

def write : Write T → Procedure (Exception T) (Live T) Unit
  | .set id newValue => set id newValue
  | .delete id => do
      let _ ← delete id

def writeAll : List (Write T) → Procedure (Exception T) (Live T) Unit
  | [] => pure ()
  | w :: ws => write w >>= fun _ => writeAll ws

def callback (f : Contents T → T → Id → List (Write T)) (value : T) (id : Id) : Procedure (Exception T) (Live T) Unit :=
  fun live => writeAll (f live.collection.contents value id) live

theorem write_collection (w : Write T) (live : Live T) :
    (write w live).mapState collection = w.call.exec live.collection := by
  have hback {α : Type} (cursor : Cursor) (o : Outcome (Exception T) (Collection T) α) :
      (o.mapState (fun c => (⟨c,cursor⟩ : Live T))).mapState collection = o := by
    cases o <;> rfl
  cases w with
  | set id v => exact hback _ (Collection.set id v live.collection)
  | delete id => exact Procedure.mapState_bind (hback _ (Collection.delete id live.collection)) (fun _ _ _ => rfl)

theorem writeAll_collection (ws : List (Write T)) (live : Live T) :
    (writeAll ws live).mapState collection = Collection.writeAll ws live.collection := by
  induction ws generalizing live with
  | nil => rfl
  | cons w ws ih => exact Procedure.mapState_bind (write_collection w live) (fun _ live' _ => ih live')

structure Watching (live : Live T) (ids : List Id) : Prop where
  valid : live.cursor.Valid live.collection.store
  defined : ∀ i v, live.collection.contents i = some v → JsValue.Defined v
  pending : live.cursor.pending live.collection.store = ids.filter (fun id => (live.collection.contents id.bits).isSome)

theorem write_contents (hd : ∀ i v, live.collection.contents i = some v → JsValue.Defined v)
    (hr : write w live = .returned () live') :
    live'.collection.contents = Function.update live.collection.contents w.entry.1 w.entry.2 := by
  have hc := write_collection w live
  rw [hr] at hc
  rw [← Collection.write_contents hd,← hc]
  rfl

theorem write_defined (hd : ∀ i v, live.collection.contents i = some v → JsValue.Defined v) (hw : w.Defined)
    (hr : write w live = .returned () live') : ∀ i v, live'.collection.contents i = some v → JsValue.Defined v := by
  have hc := write_collection w live
  have hd' := Collection.write_defined hd hw
  rw [hr] at hc
  rw [← hc] at hd'
  exact hd'

theorem set_watching {id : Id} {v : T} (h : live.Watching ids) (hv : JsValue.Defined v)
    (hp : (live.collection.contents id.bits).isSome = true) (hr : write (.set id v) live = .returned () live') :
    live'.Watching ids := by
  obtain ⟨v₀,hf⟩ := Option.isSome_iff_exists.mp hp
  obtain ⟨hstore,hcursor⟩ := set_returned hr
  have hS := write_contents h.defined hr
  refine ⟨?_,write_defined (w := .set id v) h.defined hv hr,?_⟩
  · rw [hstore,hcursor]
    exact Cursor.set_valid h.valid id v
  · rw [hstore,hcursor,Cursor.pending_set hf,h.pending,hS]
    refine List.filter_congr ?_
    intro id' _
    rw [Function.update_apply]
    split_ifs with hk
    · rw [show (Write.set id v).entry.1 = id.bits from rfl] at hk
      rw [hk,hp]
      rfl
    · rfl

theorem delete_watching {id : Id} (h : live.Watching ids) (hr : write (.delete id) live = .returned () live') :
    live'.Watching ids := by
  have hS := write_contents h.defined hr
  have hfilter : (ids.filter (fun id' => (live.collection.contents id'.bits).isSome)).filter (fun id' => id'.bits ≠ id.bits) =
      ids.filter (fun id' => (live'.collection.contents id'.bits).isSome) := by
    rw [List.filter_filter,hS]
    refine List.filter_congr ?_
    intro id' _
    rw [Function.update_apply]
    have hkey : (Write.delete id : Write T).entry = (id.bits,none) := rfl
    by_cases hk : id'.bits = id.bits <;> simp [hkey,hk]
  obtain ⟨old,hd⟩ : ∃ old, delete id live = .returned old live' := Procedure.returned_of_bind_pure hr
  cases hget : live.collection.get id with
  | none =>
    have hsame : live' = live := by
      rw [delete,hget,Collection.delete_absent hget] at hd
      cases hd
      rfl
    rwa [hsame]
  | some v =>
    obtain ⟨hstore,hcursor⟩ := delete_returned hget hd
    refine ⟨?_,write_defined (w := .delete id) h.defined trivial hr,?_⟩
    · rw [hstore,hcursor]
      exact Cursor.delete_valid h.valid id
    · rw [hstore,hcursor,Cursor.pending_delete h.valid id,h.pending,hfilter]

theorem write_watching (h : live.Watching ids) (hw : w.Defined)
    (hp : w.entry.2.isSome = true → (live.collection.contents w.key).isSome = true)
    (hr : write w live = .returned () live') : live'.Watching ids := by
  cases w with
  | set id v => exact set_watching h hw (hp rfl) hr
  | delete id => exact delete_watching h hr

theorem writeAll_watching (h : live.Watching ids) (hw : ∀ w ∈ ws, w.Defined)
    (hp : Write.InPlace live.collection.contents ws) (hr : writeAll ws live = .returned () live') :
    live'.Watching ids ∧ live'.collection.contents = Write.finalAt live.collection.contents ws := by
  induction ws generalizing live with
  | nil =>
    cases hr
    exact ⟨h,rfl⟩
  | cons w ws ih =>
    obtain ⟨hwd,hws⟩ := List.forall_mem_cons.mp hw
    rw [writeAll] at hr
    obtain ⟨_,live₁,hr₁,hrest⟩ := Procedure.returned_of_bind hr
    have hS := write_contents h.defined hr₁
    rw [Write.finalAt_cons,← hS]
    refine ih (write_watching h hwd hp.1 hr₁) hws ?_ hrest
    rw [hS]
    exact hp.2

omit [JsValue T] in
theorem forEach_visit {cb : T → Id → Procedure (Exception T) (Live T) Unit} {id : Id} {v : T} {cursor : Cursor} (fuel : ℕ)
    (hn : live.cursor.next live.collection.store = some (id,cursor)) (hv : live.collection.store.find id.bits = some v) :
    forEach cb (fuel + 1) live = (cb v id >>= fun _ => forEach cb fuel >>= fun visits =>
      pure (visits.map (fun ids => id :: ids))) ⟨live.collection,cursor⟩ := by
  simp only [forEach,hn,hv,Procedure.bind_apply]
  cases cb v id ⟨live.collection,cursor⟩ with
  | thrown e live' => rfl
  | returned a live' =>
    cases hr : forEach cb fuel live' <;> simp [hr]

omit [JsValue T] in
theorem mapState_cons {x : Procedure (Exception T) (Live T) (Option (List Id))} {y : Procedure (Exception T) (Collection T) Unit}
    {visits : List Id} (h : (x live).mapState collection = (y >>= fun _ => pure (some visits)) live.collection) (id : Id) :
    ((x >>= fun visits => pure (visits.map (fun ids => id :: ids))) live).mapState collection =
      (y >>= fun _ => pure (some (id :: visits))) live.collection := by
  rw [Procedure.bind_apply] at h ⊢
  rw [Procedure.bind_apply]
  cases hx : x live <;> cases hy : y live.collection <;> simp_all [Outcome.mapState]

theorem forEach_sweep (hw : ∀ S v id, ∀ w ∈ f S v id, w.Defined)
    (hp : ∀ S v id, S id.bits = some v → Write.InPlace S (f S v id)) {fuel : ℕ} (h : live.Watching ids)
    (hfuel : ids.length < fuel) : (forEach (callback f) fuel live).mapState collection =
      (Collection.writeAll (sweptWrites f ids live.collection.contents) >>= fun _ =>
        pure (some ((sweep f ids live.collection.contents).map Prod.fst))) live.collection := by
  induction ids generalizing fuel live with
  | nil =>
    obtain ⟨fuel,rfl⟩ := Nat.exists_eq_succ_of_ne_zero (Nat.ne_of_gt hfuel)
    simp only [forEach,Cursor.next_of_done h.pending]
    rfl
  | cons id ids ih =>
    obtain ⟨valid,defined,pending⟩ := h
    rw [sweptWrites,sweep]
    cases hv : live.collection.contents id.bits with
    | none =>
      rw [List.filter_cons_of_neg (by simp [hv])] at pending
      exact ih ⟨valid,defined,pending⟩ (Nat.lt_of_succ_lt hfuel)
    | some v =>
      obtain ⟨fuel,rfl⟩ := Nat.exists_eq_succ_of_ne_zero (Nat.ne_of_gt (Nat.zero_lt_of_lt hfuel))
      rw [List.filter_cons_of_pos (by simp [hv])] at pending
      obtain ⟨cursor,hn,hat,hrest⟩ := Cursor.next_of_pending valid pending
      rw [forEach_visit fuel hn hv,List.flatMap_cons,List.map_cons,Collection.writeAll_append]
      refine Procedure.mapState_bind (writeAll_collection _ ⟨live.collection,cursor⟩) ?_
      intro _ live' hr
      have hleft : Watching ⟨live.collection,cursor⟩ ids := ⟨hat.valid,defined,hrest⟩
      obtain ⟨hwatch,hS⟩ := writeAll_watching hleft (hw _ v id) (hp _ v id hv) hr
      have hih := ih hwatch (Nat.lt_of_succ_lt_succ hfuel)
      rw [hS] at hih
      exact mapState_cons hih id

theorem start_watching (hd : ∀ i v, c.contents i = some v → JsValue.Defined v) :
    (start c).Watching (c.toList.map Prod.fst) := by
  refine ⟨Cursor.start_valid c.store,hd,?_⟩
  have hall : (c.toList.map Prod.fst).filter (fun id => (c.contents id.bits).isSome) = c.toList.map Prod.fst := by
    rw [List.filter_eq_self]
    intro id hm
    obtain ⟨⟨id,v⟩,hstored,rfl⟩ := List.mem_map.mp hm
    exact Option.isSome_of_eq_some (Collection.mem_toList.mp hstored).2
  exact (Cursor.pending_start c.store).trans hall.symm

-- Run over the live collection, the callback's writes are the straight list of writes of a sweep over the items that
-- were there at the start.
theorem forEach_is_sweep (hd : ∀ i v, c.contents i = some v → JsValue.Defined v) (hw : ∀ S v id, ∀ w ∈ f S v id, w.Defined)
    (hp : ∀ S v id, S id.bits = some v → Write.InPlace S (f S v id)) {fuel : ℕ} (hfuel : c.toList.length < fuel) :
    let ids := c.toList.map Prod.fst
    let visits := (sweep f ids c.contents).map Prod.fst
    let writes := sweptWrites f ids c.contents
    (forEach (callback f) fuel (start c)).mapState collection =
      (Collection.writeAll writes >>= fun _ => pure (some visits)) c ∧ visits.Sublist ids ∧
      ∀ id ∈ ids, (Write.finalAt c.contents writes id.bits).isSome = true → id ∈ visits := by
  refine ⟨?_,sweep_sublist f _ _,fun id hm hi => sweep_visits hp hm hi⟩
  refine forEach_sweep hw hp (start_watching hd) ?_
  rwa [List.length_map]

def threeItems : Collection ℕ := (Procedure.play Call.exec [.registerIndex .hashIndex,.add 10,.add 11,.add 12] Collection.new).2

def dropNext (S : Contents ℕ) (v : ℕ) (id : Id) : List (Write ℕ) :=
  if v % 2 = 0 ∧ (S id.bits).isSome = true then
    [.delete (Id.fromLong (id.asLong.add Long.uone)),.set id (v + 1)]
  else []

theorem dropNext_inPlace (S : Contents ℕ) (v : ℕ) (id : Id) : Write.InPlace S (dropNext S v id) := by
  unfold dropNext
  split_ifs with h
  · refine ⟨by simp [Write.entry],?_,trivial⟩
    intro _
    have hne : id.bits ≠ (Id.fromLong (id.asLong.add Long.uone)).bits := by
      intro he
      have hone : id.bits = id.bits + 1#64 := he
      bv_omega
    have hkept : Function.update S (Id.fromLong (id.asLong.add Long.uone)).bits none id.bits = S id.bits :=
      Function.update_of_ne hne _ _
    exact (congrArg Option.isSome hkept).trans h.2
  · trivial

theorem dropNext_writes :
    (Collection.writeAll (sweptWrites dropNext (threeItems.toList.map Prod.fst) threeItems.contents) threeItems).Returns ∧
    (Collection.writeAll (sweptWrites dropNext (threeItems.toList.map Prod.fst) threeItems.contents) threeItems).state.toList =
      [(Id.fromLong ⟨1,true⟩,11),(Id.fromLong ⟨3,true⟩,13)] := by
  decide +kernel

theorem second_item_dropped : ∃ live,
    forEach (callback dropNext) 4 (start threeItems) = .returned (some [Id.fromLong ⟨1,true⟩,Id.fromLong ⟨3,true⟩]) live ∧
      live.collection.toList = [(Id.fromLong ⟨1,true⟩,11),(Id.fromLong ⟨3,true⟩,13)] := by
  have hsweep := (forEach_is_sweep (c := threeItems) (f := dropNext) (fun _ _ _ => rfl)
    (fun S v id w _ => by cases w <;> trivial) (fun S v id _ => dropNext_inPlace S v id) (by decide : 3 < 4)).1
  obtain ⟨⟨a,c',hwrites⟩,hlist⟩ := dropNext_writes
  rw [hwrites] at hlist
  rw [Procedure.bind_returned hwrites] at hsweep
  cases hr : forEach (callback dropNext) 4 (start threeItems) with
  | thrown e live =>
    rw [hr] at hsweep
    cases hsweep
  | returned visits live =>
    rw [hr] at hsweep
    obtain ⟨rfl,rfl⟩ := Outcome.returned.inj hsweep
    exact ⟨live,rfl,hlist⟩

end Live

end ComposableIndexes
