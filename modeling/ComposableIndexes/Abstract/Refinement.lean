import ComposableIndexes.Abstract.ChangeLog
import ComposableIndexes.Model.Index

namespace ComposableIndexes

section

variable {In Out σ : Type} (holds : Contents In → σ → Prop)
  (rejects defers : Contents In → Update In → Prop)

inductive Verdict (x : Exception Out) (S : Contents In) (u : Update In) :
    Outcome (Exception Out) σ (Hook Out σ) → Prop where
  | rejected {s : σ} (hr : rejects S u) (hs : holds S s) : Verdict x S u (.thrown x s)
  | committed {hook : Hook Out σ} {s s' : σ} (hr : ¬rejects S u) (hd : ¬defers S u) (hs : holds S s)
      (hh : hook s = .returned () s') (hs' : holds (u.apply S) s') : Verdict x S u (.returned hook s)
  | failed {hook : Hook Out σ} {s s' : σ} (hr : ¬rejects S u) (hd : defers S u) (hs : holds S s)
      (hh : hook s = .thrown x s') : Verdict x S u (.returned hook s)

-- The class `ix` keeps the contents it was fed: validation throws exactly on `rejects`, the hook
-- throws exactly on `defers`, and a hook that returns leaves the updated contents.
structure Refines (P : Id → Prop) (ix : Index In Out σ) : Prop where
  create : holds PartialMap.empty ix.create
  onUpdate : ∀ ctx S s u, holds S s → u.ValidAt S → P u.id →
    Verdict holds rejects defers (conflictException ctx u.id) S u (ix.onUpdate ctx u s)
  rejects_delete : ∀ S id v, ¬rejects S (.delete id v)
  defers_update : ∀ S u, defers S u → ∃ id v w, u = .update id v w
  accepts_stored : ∀ S R s id v, holds S s → PartialMap.Sub R S → R id.bits = none →
    S id.bits = some v → ¬rejects R (.add id v)
  keeps_same : ∀ S s id v, holds S s → S id.bits = some v → ¬defers S (.update id v v)
  quiet : ∀ ctx S s id v, holds S s → S id.bits = some v →
    (ix.onUpdate ctx (.update id v v) s).state = s

end

namespace Refines

variable {In Out σ : Type} {holds : Contents In → σ → Prop} {rejects defers : Contents In → Update In → Prop}
  {P : Id → Prop} {ix : Index In Out σ}

theorem not_defers_add (h : Refines holds rejects defers P ix) (S : Contents In) (id : Id) (v : In) :
    ¬defers S (.add id v) := by
  intro hd
  obtain ⟨_,_,_,hu⟩ := h.defers_update S _ hd
  cases hu

theorem not_defers_delete (h : Refines holds rejects defers P ix) (S : Contents In) (id : Id) (v : In) :
    ¬defers S (.delete id v) := by
  intro hd
  obtain ⟨_,_,_,hu⟩ := h.defers_update S _ hd
  cases hu

theorem deliver_returned (h : Refines holds rejects defers P ix) (ctx : IndexContext Out) {S : Contents In}
    {s : σ} {u : Update In} (hs : holds S s) (hu : u.ValidAt S) (hP : P u.id) (hr : ¬rejects S u)
    (hd : ¬defers S u) : ∃ s', ix.deliver ctx u s = .returned () s' ∧ holds (u.apply S) s' := by
  have hv := h.onUpdate ctx S s u hs hu hP
  generalize ho : ix.onUpdate ctx u s = o at hv
  cases hv with
  | rejected hr' => exact absurd hr' hr
  | failed _ hd' => exact absurd hd' hd
  | committed _ _ _ hh hs' => exact ⟨_,(Procedure.bind_returned ho).trans hh,hs'⟩

theorem deliver_thrown (h : Refines holds rejects defers P ix) (ctx : IndexContext Out) {S : Contents In}
    {s : σ} {u : Update In} (hs : holds S s) (hu : u.ValidAt S) (hP : P u.id)
    (hc : rejects S u ∨ defers S u) : ∃ s', ix.deliver ctx u s = .thrown (conflictException ctx u.id) s' := by
  have hv := h.onUpdate ctx S s u hs hu hP
  generalize ho : ix.onUpdate ctx u s = o at hv
  cases hv with
  | rejected => exact ⟨_,Procedure.bind_thrown ho⟩
  | failed _ _ _ hh => exact ⟨_,(Procedure.bind_returned ho).trans hh⟩
  | committed hr hd => exact absurd hc (by simp [hr,hd])

end Refines

end ComposableIndexes
