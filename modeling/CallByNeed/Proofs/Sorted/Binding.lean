import CallByNeed.Proofs.Sorted.Data

/- Binding and interpreting among sorted dictionaries. A dictionary loses an entry when a parameter
   takes it, and keywords that are left become a dictionary under strings. -/
namespace CallByNeed
open Script

namespace Arguments

theorem neat_allocMerge (collections : List Ref) : (allocMerge collections : Script Ref).Neat :=
  neat_allocCall _ collections

theorem neat_allocAppend (list : Ref) (elements : List Ref) :
    (allocAppend list elements : Script Ref).Neat :=
  neat_allocCall _ (list :: elements)

theorem neat_ofCall (ps : List (Ref × Bool)) (ks : List (String × Ref)) (ds : List Ref) :
    (ofCall ps ks ds : Script Arguments).Neat := by
  unfold ofCall
  split
  · exact neat_pure _
  · refine (neat_foldlM (fun list p => ?_) _ _).bind fun _ => neat_pure _
    split
    · exact neat_allocMerge _
    · exact neat_allocAppend _ _

theorem neat_merge (a b : Arguments) : (a.merge b : Script Arguments).Neat := by
  unfold merge
  cases a.spread with
  | none => exact neat_pure _
  | some list =>
    cases b.spread with
    | none =>
      dsimp only
      split
      · exact neat_pure _
      · exact (neat_allocAppend _ _).bind fun _ => neat_pure _
    | some more =>
      have joined (list : Ref) := neat_allocMerge [list, more]
      dsimp only
      split
      · exact (joined list).bind fun _ => neat_pure _
      · exact (neat_allocAppend _ _).bind fun list => (joined list).bind fun _ => neat_pure _

theorem neat_nextPositional (a : Arguments) : a.nextPositional.Neat := by
  unfold nextPositional
  split
  · exact neat_pure _
  · exact neat_pure _
  · refine (neat_forceList _).bind fun l => ?_
    cases l <;> exact neat_pure _

theorem neat_restPositionals (a : Arguments) : a.restPositionals.Neat := by
  refine (LazyList.neat_ofRefs _).bind fun l => (neat_allocList l).bind fun explicit => ?_
  cases a.spread with
  | none => exact neat_pure _
  | some list => exact (neat_allocMerge _).bind fun _ => neat_pure _

theorem neat_takeEntry (key : Key) (ds : List Ref) : (takeEntry key ds).Neat := by
  induction ds with
  | nil => exact neat_pure _
  | cons d ds ih =>
    refine (sorts_forceDict d).bind fun dict sorted => ?_
    split
    · have rest : (dict.erase key).Sorted := sorted.erase
      exact (neat_allocValue (v := .dict _) rest).bind fun _ => neat_pure _
    · refine ih.bind fun taken => ?_
      cases taken <;> exact neat_pure _

theorem neat_takeKeyword (a : Arguments) (name : String) : (a.takeKeyword name).Neat := by
  unfold takeKeyword
  split
  · exact neat_pure _
  · refine (neat_takeEntry _ _).bind fun taken => ?_
    cases taken <;> exact neat_pure _

theorem neat_restKeywords (a : Arguments) : a.restKeywords.Neat := by
  have explicit : (Dict.ofList (a.keywords.map fun k => (Key.string k.1, k.2))).Sorted := by
    refine Dict.sorted_ofList fun e mem => ?_
    obtain ⟨k, _, rfl⟩ := List.mem_map.1 mem
    trivial
  refine (neat_allocValue (v := .dict _) explicit).bind fun d => ?_
  split
  · exact neat_pure _
  · exact (neat_allocMerge _).bind fun _ => neat_pure _

theorem neat_countEntries (ds : List Ref) : (countEntries ds).Neat := by
  induction ds with
  | nil => exact neat_pure _
  | cons d ds ih => exact (sorts_forceDict d).neat.bind fun dict => ih.bind fun _ => neat_pure _

theorem neat_checkTaken (a : Arguments) : a.checkTaken.Neat := by
  have counted (left : Nat) :
      (if 0 < left then fail (.extraPositionals left)
      else do
        let left := a.keywords.length + (← countEntries a.dicts)
        if 0 < left then fail (.extraKeywords left) else pure () : Script Unit).Neat := by
    split
    · exact sorts_fail _
    · refine (neat_countEntries _).bind fun n => ?_
      dsimp only
      split
      · exact sorts_fail _
      · exact neat_pure _
  unfold checkTaken
  split
  · refine (neat_nextPositional a).bind fun x => ?_
    obtain ⟨_ | r, left⟩ := x
    · exact counted 0
    · exact counted 1
  · exact counted _

end Arguments

theorem Default.neat_ref (d : Default) : d.ref.Neat := by
  cases d with
  | literal l => exact neat_allocValue l.sorted_value
  | cell r => exact neat_pure _

namespace Binding

theorem neat_findKeyword (b : Binding) (name : String) : (b.findKeyword name).Neat :=
  (Arguments.neat_takeKeyword b.left name).bind fun _ => neat_pure _

theorem neat_findPositional (b : Binding) (name : String) : (b.findPositional name).Neat := by
  have by_name (left : Arguments) :
      (do
        let taken ← left.takeKeyword name
        pure (taken.1, { b with left := taken.2, named := true }) :
          Script (Option Ref × Binding)).Neat :=
    (Arguments.neat_takeKeyword left name).bind fun _ => neat_pure _
  unfold findPositional
  dsimp only
  split
  · exact by_name b.left
  · refine (Arguments.neat_nextPositional b.left).bind fun x => ?_
    obtain ⟨_ | r, left⟩ := x
    · exact by_name left
    · exact neat_pure _

theorem neat_bindNamed {find : Binding → String → Script (Option Ref × Binding)}
    (finds : ∀ b name, (find b name).Neat) (missing : Cause) (half : Half Default) (b : Binding) :
    (b.bindNamed find missing half).Neat := by
  refine (neat_foldlM (fun b name => ?_) half.requireds b).bind fun b =>
    neat_foldlM (fun b optional => ?_) half.optionals b
  · refine (finds b name).bind fun x => ?_
    obtain ⟨_ | r, c⟩ := x
    · exact sorts_fail _
    · exact neat_pure _
  · refine (finds b optional.1).bind fun x => ?_
    obtain ⟨_ | r, c⟩ := x
    · exact optional.2.neat_ref.bind fun r => neat_pure _
    · exact neat_pure _

theorem neat_bindRest {rest : Arguments → Script (Ref × Arguments)} (rests : ∀ a, (rest a).Neat)
    (half : Half Default) (b : Binding) : (b.bindRest rest half).Neat := by
  unfold bindRest
  cases half.rest with
  | none => exact neat_pure _
  | some name => exact (rests b.left).bind fun x => neat_pure _

end Binding

theorem Signature.neat_bind (s : Signature Default) (a : Arguments) : (s.bind a).Neat := by
  refine (Binding.neat_bindNamed Binding.neat_findPositional _ s.positional _).bind fun b => ?_
  refine (Binding.neat_bindRest Arguments.neat_restPositionals s.positional b).bind fun b => ?_
  refine (Binding.neat_bindNamed Binding.neat_findKeyword _ s.keyword b).bind fun b => ?_
  refine (Binding.neat_bindRest Arguments.neat_restKeywords s.keyword b).bind fun b => ?_
  exact (Arguments.neat_checkTaken b.left).bind fun _ => neat_pure _

namespace Expr

mutual
theorem neat_interpret (locals : List Ref) : ∀ e : Expr, (interpret locals e : Script Ref).Neat
  | .literal l => by
    simp only [interpret]
    exact neat_allocValue l.sorted_value
  | .predefined p => by
    simp only [interpret]
    exact neat_allocValue p.sorted_value
  | .cell r => by
    simp only [interpret]
    exact neat_pure _
  | .local i => by
    simp only [interpret]
    split
    · exact neat_pure _
    · exact neat_alloc (c := .vacant) trivial
  | .call function positionals keywords dicts site => by
    simp only [interpret]
    refine (neat_interpret locals function).bind fun f => ?_
    refine (neat_interpretPositionals locals positionals).bind fun ps => ?_
    refine (neat_interpretKeywords locals keywords).bind fun ks => ?_
    refine (neat_interpretAll locals dicts).bind fun ds => ?_
    exact (Arguments.neat_ofCall _ _ _).bind fun _ => neat_allocOfCall _ _ _
  | .switch value cases default => by
    simp only [interpret]
    refine (neat_interpret locals value).bind fun r => ?_
    exact neat_alloc (c := .ofSuspension (.branch _ r)) trivial

theorem neat_interpretPositionals (locals : List Ref) : ∀ ps : List PositionalExpr,
    (interpretPositionals locals ps : Script (List (Ref × Bool))).Neat
  | [] => by
    simp only [interpretPositionals]
    exact neat_pure _
  | ⟨value, expanded⟩ :: rest => by
    simp only [interpretPositionals]
    exact (neat_interpret locals value).bind fun _ =>
      (neat_interpretPositionals locals rest).bind fun _ => neat_pure _

theorem neat_interpretKeywords (locals : List Ref) : ∀ ks : List KeywordExpr,
    (interpretKeywords locals ks : Script (List (String × Ref))).Neat
  | [] => by
    simp only [interpretKeywords]
    exact neat_pure _
  | ⟨name, value⟩ :: rest => by
    simp only [interpretKeywords]
    exact (neat_interpret locals value).bind fun _ =>
      (neat_interpretKeywords locals rest).bind fun _ => neat_pure _

theorem neat_interpretAll (locals : List Ref) : ∀ es : List Expr,
    (interpretAll locals es : Script (List Ref)).Neat
  | [] => by
    simp only [interpretAll]
    exact neat_pure _
  | e :: rest => by
    simp only [interpretAll]
    exact (neat_interpret locals e).bind fun _ =>
      (neat_interpretAll locals rest).bind fun _ => neat_pure _
end

theorem neat_bindLocals (bindings : List Expr) (parameters : List Ref) :
    (bindLocals bindings parameters : Script (List Ref)).Neat :=
  neat_foldlM (fun locals e => (neat_interpret locals e).bind fun _ => neat_pure _) _ _

end Expr

theorem Branch.neat_select (b : Branch) (key : Except Fault Key) : (b.select key).Neat := by
  unfold select
  cases key with
  | ok key =>
    dsimp only [pure_bind]
    cases find key b.cases with
    | some e => exact neat_pure e
    | none => cases b.default <;> first | exact neat_pure _ | exact sorts_fail _
  | error e =>
    dsimp only
    split
    · cases b.default <;> first | exact neat_pure _ | exact sorts_fail _
    · exact sorts_raise _

end CallByNeed
