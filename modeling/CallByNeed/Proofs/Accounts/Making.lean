import CallByNeed.Proofs.Accounts.Lists
import CallByNeed.Proofs.Faults.Script

/- Scripts that make cells and do nothing else. Interpreting code is one, as is making lists and
   arguments: none of this demands a cell, and none of it fails. -/
namespace CallByNeed
namespace Script
variable {α β γ : Type}

/-- The script makes cells and does nothing else, whatever the new cells are. -/
inductive IsMaker {α : Type} : Script α → Prop where
  | done (a : α) : IsMaker (.done a)
  | alloc (c : Cell) {next : Ref → Script α} (rest : ∀ r, IsMaker (next r)) :
      IsMaker (.act (.alloc c) next)

section
variable {m : Script α} {f : α → Script β}

theorem IsMaker.follows {g h : Heap} {log : List (Ref × Value)} {o : Except Fault α}
    (makes : m.IsMaker) (path : m.Follows g h log o) : log = [] ∧ ∃ a, o = .ok a := by
  induction path with
  | done => exact ⟨rfl, _, rfl⟩
  | raise | demand | ask => cases makes
  | alloc _ _ ih =>
    cases makes with
    | alloc _ rest => exact ih (rest _)
  | act other _ _ =>
    cases makes with
    | alloc c _ => exact absurd rfl (other c)

theorem IsMaker.strict (makes : m.IsMaker) : m.Strict := by
  induction makes with
  | done => trivial
  | alloc _ _ ih => exact ih

theorem IsMaker.bind (first : m.IsMaker) (rest : ∀ a, (f a).IsMaker) : (m >>= f).IsMaker := by
  change (m.bind f).IsMaker
  induction first with
  | done a => exact rest a
  | alloc c _ ih => exact .alloc c ih

end

theorem isMaker_pure (a : α) : (pure a : Script α).IsMaker := .done a

theorem isMaker_alloc (c : Cell) : (alloc c : Script Ref).IsMaker := .alloc c fun r => .done r

theorem isMaker_allocValue (v : Value) : (allocValue v : Script Ref).IsMaker := isMaker_alloc _

theorem isMaker_allocCall (v : Value) (positionals : List Ref) :
    (allocCall v positionals : Script Ref).IsMaker :=
  (isMaker_allocValue v).bind fun _ => isMaker_alloc _

theorem isMaker_foldlM {f : α → γ → Script α} (each : ∀ a x, (f a x).IsMaker) (l : List γ) (a : α) :
    (l.foldlM f a).IsMaker := by
  induction l generalizing a with
  | nil => exact isMaker_pure a
  | cons x l ih =>
    rw [List.foldlM_cons]
    exact (each a x).bind ih

theorem isMaker_ofRefs (rs : List Ref) : (LazyList.ofRefs rs : Script LazyList).IsMaker :=
  isMaker_foldlM (fun _ _ => (isMaker_allocValue _).bind fun _ => isMaker_pure _) _ _

theorem isMaker_ofCall (ps : List (Ref × Bool)) (ks : List (String × Ref)) (ds : List Ref) :
    (Arguments.ofCall ps ks ds : Script Arguments).IsMaker := by
  unfold Arguments.ofCall
  split
  · exact isMaker_pure _
  · refine (isMaker_foldlM (fun list p => ?_) _ _).bind fun _ => isMaker_pure _
    split
    · exact isMaker_allocCall _ _
    · exact isMaker_allocCall _ _

end Script

namespace Key
open Script

mutual
theorem isMaker_toValue : ∀ k : Key, (k.toValue : Script Value).IsMaker
  | .bool _ | .number _ | .string _ => by
    simp only [toValue]
    exact isMaker_pure _
  | .list keys => by
    simp only [toValue]
    refine (isMaker_toElements keys).bind fun rs => ?_
    exact (isMaker_ofRefs rs).bind fun _ => isMaker_pure _
  | .dict entries => by
    simp only [toValue]
    exact (isMaker_toEntries entries).bind fun _ => isMaker_pure _

theorem isMaker_toElements : ∀ ks : List Key, (toElements ks : Script (List Ref)).IsMaker
  | [] => by
    simp only [toElements]
    exact isMaker_pure _
  | k :: ks => by
    simp only [toElements]
    refine (isMaker_toValue k).bind fun v => (isMaker_allocValue v).bind fun r => ?_
    exact (isMaker_toElements ks).bind fun _ => isMaker_pure _

theorem isMaker_toEntries : ∀ es : List (Key × Key),
    (toEntries es : Script (List (Key × Ref))).IsMaker
  | [] => by
    simp only [toEntries]
    exact isMaker_pure _
  | (_, x) :: es => by
    simp only [toEntries]
    refine (isMaker_toValue x).bind fun v => (isMaker_allocValue v).bind fun r => ?_
    exact (isMaker_toEntries es).bind fun _ => isMaker_pure _
end

end Key

namespace Expr
open Script

mutual
theorem isMaker_interpret (locals : List Ref) :
    ∀ e : Expr, (interpret locals e : Script Ref).IsMaker
  | .literal _ | .predefined _ => by
    simp only [interpret]
    exact isMaker_allocValue _
  | .cell r => by
    simp only [interpret]
    exact isMaker_pure r
  | .local i => by
    simp only [interpret]
    split
    · exact isMaker_pure _
    · exact isMaker_alloc _
  | .call function positionals keywords dicts site => by
    simp only [interpret]
    refine (isMaker_interpret locals function).bind fun f => ?_
    refine (isMaker_interpretPositionals locals positionals).bind fun ps => ?_
    refine (isMaker_interpretKeywords locals keywords).bind fun ks => ?_
    refine (isMaker_interpretAll locals dicts).bind fun ds => ?_
    exact (isMaker_ofCall ps ks ds).bind fun a => isMaker_alloc _
  | .switch value cases default => by
    simp only [interpret]
    exact (isMaker_interpret locals value).bind fun r => isMaker_alloc _

theorem isMaker_interpretPositionals (locals : List Ref) : ∀ ps : List PositionalExpr,
    (interpretPositionals locals ps : Script (List (Ref × Bool))).IsMaker
  | [] => by
    simp only [interpretPositionals]
    exact isMaker_pure _
  | ⟨value, expanded⟩ :: rest => by
    simp only [interpretPositionals]
    refine (isMaker_interpret locals value).bind fun r => ?_
    exact (isMaker_interpretPositionals locals rest).bind fun _ => isMaker_pure _

theorem isMaker_interpretKeywords (locals : List Ref) : ∀ ks : List KeywordExpr,
    (interpretKeywords locals ks : Script (List (String × Ref))).IsMaker
  | [] => by
    simp only [interpretKeywords]
    exact isMaker_pure _
  | ⟨name, value⟩ :: rest => by
    simp only [interpretKeywords]
    refine (isMaker_interpret locals value).bind fun r => ?_
    exact (isMaker_interpretKeywords locals rest).bind fun _ => isMaker_pure _

theorem isMaker_interpretAll (locals : List Ref) : ∀ es : List Expr,
    (interpretAll locals es : Script (List Ref)).IsMaker
  | [] => by
    simp only [interpretAll]
    exact isMaker_pure _
  | e :: rest => by
    simp only [interpretAll]
    refine (isMaker_interpret locals e).bind fun r => ?_
    exact (isMaker_interpretAll locals rest).bind fun _ => isMaker_pure _
end

end Expr
end CallByNeed
