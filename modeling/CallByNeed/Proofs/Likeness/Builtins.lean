import CallByNeed.Builtin.Run
import CallByNeed.Proofs.Likeness.Binding

/- Likeness of the builtins, each on like parameters. Only fixed points tie knots. -/
namespace CallByNeed

section
variable {M : Manner} {B : Bond} {bound bound' : Nat}

theorem alike_answer {v v' : Value} (values : ValueLike M B v v') :
    Alike M B (OutcomeLike M B) (answer v) (answer v') :=
  .pure (.value values)

theorem alike_tail {r r' : Ref} (cells : B.cells r r') :
    Alike M B (OutcomeLike M B) (pure (.tail r)) (pure (.tail r')) :=
  .pure (.tail cells)

namespace Builtin
variable {r r' first first' rest rest' arguments arguments' collection collection' key key' : Ref}

theorem alike_foldNumbers (bounds : M.Bounds bound bound') (op : Number → Number → Number)
    (start : Number) (cells : B.cells r r') :
    Alike M B Eq (foldNumbers bound op start r) (foldNumbers bound' op start r') := by
  refine (alike_forceList cells).bind fun l l' lists => ?_
  refine LazyList.alike_walk ?_ bounds lists rfl
  rintro total _ x x' rfl heads
  refine (alike_forceNumber heads).bind ?_
  rintro n _ rfl
  exact .pure (.yield rfl)

theorem alike_sumOf (bounds : M.Bounds bound bound') (cells : B.cells r r') :
    Alike M B (OutcomeLike M B) (sumOf bound r) (sumOf bound' r') := by
  refine (alike_foldNumbers bounds _ _ cells).bind ?_
  rintro n _ rfl
  exact alike_answer (.number n)

theorem alike_productOf (bounds : M.Bounds bound bound') (cells : B.cells r r') :
    Alike M B (OutcomeLike M B) (productOf bound r) (productOf bound' r') := by
  refine (alike_foldNumbers bounds _ _ cells).bind ?_
  rintro n _ rfl
  exact alike_answer (.number n)

theorem alike_foldFrom (bounds : M.Bounds bound bound') (b : Builtin)
    (op : Number → Number → Number) (firsts : B.cells first first') (rests : B.cells rest rest') :
    Alike M B (OutcomeLike M B) (foldFrom bound b op first rest)
      (foldFrom bound' b op first' rest') := by
  refine (alike_forceNumber firsts).bind ?_
  rintro start _ rfl
  refine (alike_forceList rests).bind fun l l' lists => ?_
  refine (LazyList.alike_walk (L := Eq) ?_ bounds lists rfl).bind ?_
  · rintro ⟨count, total⟩ _ x x' rfl heads
    refine (alike_forceNumber heads).bind ?_
    rintro n _ rfl
    exact .pure (.yield rfl)
  · rintro ⟨count, total⟩ _ rfl
    dsimp only
    split
    · exact .fail _
    · exact alike_answer (.number total)

theorem alike_binary (op : Number → Number → Number) (firsts : B.cells first first')
    (rests : B.cells rest rest') :
    Alike M B (OutcomeLike M B) (binary op first rest) (binary op first' rest') := by
  refine (alike_forceNumber firsts).bind ?_
  rintro left _ rfl
  refine (alike_forceNumber rests).bind ?_
  rintro right _ rfl
  exact alike_answer (.number _)

theorem alike_isIntegral (cells : B.cells r r') :
    Alike M B (OutcomeLike M B) (isIntegral r) (isIntegral r') := by
  refine (alike_forceNumber cells).bind ?_
  rintro n _ rfl
  exact alike_answer (.bool _)

theorem alike_allEqual (bounds : M.Bounds bound bound') (cells : B.cells r r') :
    Alike M B (OutcomeLike M B) (allEqual bound r) (allEqual bound' r') := by
  refine (alike_forceList cells).bind fun l l' lists => ?_
  cases lists with
  | nil => exact alike_answer (.bool true)
  | cons heads tails =>
    refine (Alike.force heads).bind fun v v' values => ?_
    refine (alike_forceList tails).bind fun k k' others => ?_
    refine (LazyList.alike_walk (L := Eq) ?_ bounds others rfl).bind ?_
    · rintro b _ x x' rfl cells
      refine (Alike.force cells).bind fun u u' elements => ?_
      refine (Value.alike_equal bounds values elements).bind ?_
      rintro same _ rfl
      cases same with
      | true => exact .pure (.yield rfl)
      | false => exact .pure (.done rfl)
    · rintro same _ rfl
      exact alike_answer (.bool same)

theorem alike_chained (bounds : M.Bounds bound bound') (b : Builtin) (holds : Ordering → Bool)
    (cells : B.cells r r') :
    Alike M B (OutcomeLike M B) (chained bound b holds r) (chained bound' b holds r') := by
  refine (alike_forceList cells).bind fun l l' lists => ?_
  refine (LazyList.alike_walk
    (L := fun x x' : Option Value × Bool =>
      Option.Rel (ValueLike M B) x.1 x'.1 ∧ x.2 = x'.2) ?_ bounds lists ⟨.none, rfl⟩).bind ?_
  · rintro ⟨last, all⟩ ⟨last', all'⟩ x x' ⟨lasts, _⟩ heads
    refine (Alike.force heads).bind fun v v' values => ?_
    cases lasts with
    | none => exact .pure (.yield ⟨.some values, rfl⟩)
    | some lasts =>
      refine (Value.alike_compare bounds lasts values).bind ?_
      rintro o _ rfl
      split
      · exact .pure (.yield ⟨.some values, rfl⟩)
      · exact .pure (.done ⟨.some values, rfl⟩)
  · rintro ⟨last, all⟩ ⟨last', _⟩ ⟨lasts, rfl⟩
    cases lasts with
    | none => exact .fail _
    | some lasts => exact alike_answer (.bool all)

theorem alike_compareTwo (bounds : M.Bounds bound bound') (firsts : B.cells first first')
    (rests : B.cells rest rest') :
    Alike M B (OutcomeLike M B) (compareTwo bound first rest)
      (compareTwo bound' first' rest') := by
  refine (Alike.force firsts).bind fun v v' lefts => ?_
  refine (Alike.force rests).bind fun u u' rights => ?_
  refine (Value.alike_compare bounds lefts rights).bind ?_
  rintro o _ rfl
  cases o <;> exact alike_answer (.number _)

theorem alike_hasOrder (cells : B.cells r r') :
    Alike M B (OutcomeLike M B) (hasOrder r) (hasOrder r') := by
  refine (Alike.force cells).bind fun v v' values => ?_
  rw [values.isOrdered_eq]
  exact alike_answer (.bool _)

theorem alike_lookUp (bounds : M.Bounds bound bound') {d d' : Dict Ref}
    (dicts : DictLike B.cells d d') {v v' : Value} (keys : ValueLike M B v v') :
    Alike M B B.cells (d.lookUp bound v) (d'.lookUp bound' v') := by
  refine (Key.alike_ofValue bounds keys).bind ?_
  rintro k _ rfl
  have found : Option.Rel B.cells (d.get? k) (d'.get? k) := Dict.rel_find k dicts
  generalize d.get? k = o, d'.get? k = o' at found
  cases found with
  | some cells => exact .pure cells
  | none =>
    refine (Value.alike_dump bounds keys).bind ?_
    rintro text _ rfl
    exact .fail _

theorem alike_mergeAll (bounds : M.Bounds bound bound') (firsts : B.cells first first')
    (rests : B.cells rest rest') :
    Alike M B (OutcomeLike M B) (mergeAll bound first rest) (mergeAll bound' first' rest') := by
  refine (Alike.force firsts).bind fun v v' values => ?_
  cases values with
  | list lists =>
    exact (LazyList.alike_concat bounds lists rests).bind fun l l' all => alike_answer (.list all)
  | dict dicts =>
    refine (alike_forceList rests).bind fun l l' lists => ?_
    refine (LazyList.alike_walk (L := DictLike B.cells) ?_ bounds lists dicts).bind ?_
    · intro d d' x x' dicts heads
      refine (alike_forceDict heads).bind fun e e' others => ?_
      exact .pure (.yield (Dict.like_merge dicts others))
    · intro d d' all
      exact alike_answer (.dict all)
  | _ => exact .fail _

theorem alike_appendAll (firsts : B.cells first first') (rests : B.cells rest rest') :
    Alike M B (OutcomeLike M B) (appendAll first rest) (appendAll first' rest') := by
  have merges : ValueLike M B (.function merge.function) (.function merge.function) :=
    .function (like_function (.inr (.inr rfl)))
  exact (alike_allocCall merges (.cons firsts (.cons rests .nil))).bind fun _ _ => alike_tail

theorem alike_prependAll (bounds : M.Bounds bound bound') (cells : B.cells arguments arguments') :
    Alike M B (OutcomeLike M B) (prependAll bound arguments) (prependAll bound' arguments') := by
  refine (alike_forceList cells).bind fun l l' lists => ?_
  refine (LazyList.alike_elements bounds lists).bind fun rs rs' likes => ?_
  have reversed := likes.reverse
  generalize rs.reverse = qs, rs'.reverse = qs' at reversed
  cases reversed with
  | nil => exact .fail _
  | cons last heads =>
    refine (alike_forceList last).bind fun k k' lasts => ?_
    exact (LazyList.alike_pushAll lasts heads).bind fun _ _ all => alike_answer (.list all)

theorem alike_insertInto (bounds : M.Bounds bound bound') (cells : B.cells collection collection')
    (keys : B.cells key key') (values : B.cells r r') :
    Alike M B (OutcomeLike M B) (insertInto bound collection key r)
      (insertInto bound' collection' key' r') := by
  refine (Alike.force cells).bind fun v v' collections => ?_
  cases collections with
  | list lists =>
    refine (alike_forceNumber keys).bind ?_
    rintro n _ rfl
    exact (LazyList.alike_insert lists n values).bind fun _ _ all => alike_answer (.list all)
  | dict dicts =>
    refine (Alike.force keys).bind fun u u' places => ?_
    refine (Key.alike_ofValue bounds places).bind ?_
    rintro k _ rfl
    exact alike_answer (.dict (Dict.like_insert k dicts values))
  | _ => exact .fail _

theorem alike_deleteFrom (bounds : M.Bounds bound bound') (cells : B.cells collection collection')
    (keys : B.cells key key') :
    Alike M B (OutcomeLike M B) (deleteFrom bound collection key)
      (deleteFrom bound' collection' key') := by
  refine (Alike.force cells).bind fun v v' collections => ?_
  cases collections with
  | list lists =>
    refine (alike_forceNumber keys).bind ?_
    rintro n _ rfl
    exact (LazyList.alike_delete lists n).bind fun _ _ all => alike_answer (.list all)
  | dict dicts =>
    refine (Alike.force keys).bind fun u u' places => ?_
    refine (alike_lookUp bounds dicts places).bind fun x x' _ => ?_
    refine (Key.alike_ofValue bounds places).bind ?_
    rintro k _ rfl
    exact alike_answer (.dict (Dict.like_remove k dicts))
  | _ => exact .fail _

theorem alike_includes (bounds : M.Bounds bound bound') (cells : B.cells collection collection')
    (elements : B.cells r r') :
    Alike M B (OutcomeLike M B) (includes bound collection r)
      (includes bound' collection' r') := by
  refine (Alike.force elements).bind fun u u' values => ?_
  refine (Alike.force cells).bind fun v v' collections => ?_
  cases collections with
  | list lists =>
    refine (LazyList.alike_includes bounds lists values).bind ?_
    rintro found _ rfl
    exact alike_answer (.bool found)
  | dict dicts =>
    refine (Key.alike_ofValue bounds values).bind ?_
    rintro k _ rfl
    rw [Dict.contains_eq k dicts]
    exact alike_answer (.bool _)
  | string s =>
    cases values with
    | string part => exact alike_answer (.bool _)
    | _ => exact .fail _
  | _ => exact .fail _

theorem alike_indexOf (bounds : M.Bounds bound bound') (cells : B.cells collection collection')
    (keys : B.cells key key') :
    Alike M B (OutcomeLike M B) (indexOf bound collection key)
      (indexOf bound' collection' key') := by
  refine (Alike.force cells).bind fun v v' collections => ?_
  cases collections with
  | list lists =>
    refine (alike_forceNumber keys).bind ?_
    rintro n _ rfl
    exact (LazyList.alike_index lists n).bind fun _ _ => alike_tail
  | dict dicts =>
    refine (Alike.force keys).bind fun u u' places => ?_
    exact (alike_lookUp bounds dicts places).bind fun _ _ => alike_tail
  | _ => exact .fail _

theorem alike_sizeOf (bounds : M.Bounds bound bound') (cells : B.cells collection collection') :
    Alike M B (OutcomeLike M B) (sizeOf bound collection) (sizeOf bound' collection') := by
  refine (Alike.force cells).bind fun v v' collections => ?_
  cases collections with
  | list lists =>
    refine (LazyList.alike_length bounds lists).bind ?_
    rintro n _ rfl
    exact alike_answer (.number _)
  | dict dicts =>
    simp only [Dict.size_eq dicts]
    exact alike_answer (.number _)
  | string s => exact alike_answer (.number _)
  | _ => exact .fail _

theorem alike_toLazyList (cells : B.cells collection collection') :
    Alike M B (OutcomeLike M B) (toLazyList collection) (toLazyList collection') := by
  refine (Alike.force cells).bind fun v v' collections => ?_
  cases collections with
  | list lists => exact alike_answer (.list lists)
  | dict dicts =>
    exact (Dict.alike_toLazyList dicts).bind fun _ _ all => alike_answer (.list all)
  | string s =>
    have same_chars : List.Forall₂ Eq s.toList s.toList := List.forall₂_same.2 (by simp)
    refine (Alike.mapM (L := B.cells) ?_ same_chars).bind fun rs rs' likes => ?_
    · rintro c _ rfl
      exact .allocValue (.string _)
    · exact (LazyList.alike_ofRefs likes).bind fun _ _ all => alike_answer (.list all)
  | _ => exact .fail _

theorem alike_insertPairs (bounds : M.Bounds bound bound') {d d' : Dict Ref}
    (dicts : DictLike B.cells d d') {rs rs' : List Ref} (likes : RefsLike B rs rs') :
    Alike M B (DictLike B.cells) (insertPairs bound d rs) (insertPairs bound' d' rs') := by
  fun_induction insertPairs bound d rs generalizing d' rs' with
  | case1 d key value more ih =>
    cases likes with
    | cons keys others =>
      cases others with
      | cons values others =>
        refine (Alike.force keys).bind fun v v' places => ?_
        refine (Key.alike_ofValue bounds places).bind ?_
        rintro k _ rfl
        exact ih k (Dict.like_insert k dicts values) others
  | case2 d rs short =>
    cases likes with
    | nil => exact .pure dicts
    | cons first others =>
      cases others with
      | nil => exact .pure dicts
      | cons second others => exact (short _ _ _ rfl).elim

theorem alike_dictOf (bounds : M.Bounds bound bound') (cells : B.cells arguments arguments') :
    Alike M B (OutcomeLike M B) (dictOf bound arguments) (dictOf bound' arguments') := by
  refine (alike_forceList cells).bind fun l l' lists => ?_
  refine (LazyList.alike_elements bounds lists).bind fun rs rs' likes => ?_
  simp only [likes.length_eq]
  split
  · exact .fail _
  · refine (alike_insertPairs bounds Dict.like_empty likes).bind ?_
    intro d d' dicts
    exact alike_answer (.dict dicts)

theorem alike_chooseBranch {condition condition' : Ref} (conditions : B.cells condition condition')
    (firsts : B.cells first first') (rests : B.cells rest rest') :
    Alike M B (OutcomeLike M B) (chooseBranch condition first rest)
      (chooseBranch condition' first' rest') := by
  refine (alike_forceBool conditions).bind ?_
  rintro b _ rfl
  cases b with
  | true => exact alike_tail firsts
  | false => exact alike_tail rests

theorem alike_typeName (cells : B.cells r r') :
    Alike M B (OutcomeLike M B) (typeName r) (typeName r') := by
  refine (Alike.observe cells).bind fun v v' values => ?_
  rw [values.type_eq]
  exact alike_answer (.string _)

theorem alike_textOf (bounds : M.Bounds bound bound') (cells : B.cells r r') :
    Alike M B (OutcomeLike M B) (textOf bound r) (textOf bound' r') := by
  refine (Alike.force cells).bind fun v v' values => ?_
  refine (Value.alike_text bounds values).bind ?_
  rintro text _ rfl
  exact alike_answer (.string text)

theorem alike_dumpOf (bounds : M.Bounds bound bound') (cells : B.cells r r') :
    Alike M B (OutcomeLike M B) (dumpOf bound r) (dumpOf bound' r') := by
  refine (Alike.force cells).bind fun v v' values => ?_
  refine (Value.alike_dump bounds values).bind ?_
  rintro text _ rfl
  exact alike_answer (.string text)

theorem alike_raiseCustom (firsts : B.cells first first') (rests : B.cells rest rest') :
    Alike M B (OutcomeLike M B) (raiseCustom first rest) (raiseCustom first' rest') := by
  refine (alike_forceString firsts).bind ?_
  rintro name _ rfl
  refine (alike_forceString rests).bind ?_
  rintro message _ rfl
  exact .fail _

theorem alike_catchFault (cells : B.cells r r') :
    Alike M B (OutcomeLike M B) (catchFault r) (catchFault r') := by
  refine (Alike.observe cells).bind fun v v' values => ?_
  cases values with
  | error faults =>
    simp only [Fault.name, Fault.message, faults.cause]
    refine (Alike.allocValue (.string _)).bind fun x x' names => ?_
    refine (Alike.allocValue (.string _)).bind fun y y' messages => ?_
    refine alike_answer (.dict (Dict.like_ofList ?_))
    exact .cons ⟨rfl, names⟩ (.cons ⟨rfl, messages⟩ .nil)
  | _ => exact alike_answer (.dict Dict.like_empty)

theorem alike_inSequence (bounds : M.Bounds bound bound') (firsts : B.cells first first')
    (rests : B.cells rest rest') :
    Alike M B (OutcomeLike M B) (inSequence bound first rest)
      (inSequence bound' first' rest') := by
  refine (alike_forceList rests).bind fun l l' lists => ?_
  refine (LazyList.alike_trail (fun _ _ lasts => ?_) (fun _ _ => .pure) bounds lists firsts).bind
    fun _ _ => alike_tail
  exact (Alike.force lasts).bind fun _ _ _ => .pure rfl

theorem alike_effectsInSequence (hosted : M.hosted) (bounds : M.Bounds bound bound')
    (firsts : B.cells first first') (rests : B.cells rest rest') :
    Alike M B (OutcomeLike M B) (effectsInSequence bound first rest)
      (effectsInSequence bound' first' rest') := by
  refine (Alike.perform hosted firsts).bind fun v v' results => ?_
  refine (alike_forceList rests).bind fun l l' lists => ?_
  refine (LazyList.alike_trail (fun _ _ lasts => ?_) (fun _ _ => Alike.perform hosted) bounds lists
    results).bind fun _ _ => alike_answer
  cases lasts with
  | error faults => exact .raise faults
  | _ => exact .pure rfl

theorem alike_inParallel (bounds : M.Bounds bound bound') (firsts : B.cells first first')
    (rests : B.cells rest rest') :
    Alike M B (OutcomeLike M B) (inParallel bound first rest)
      (inParallel bound' first' rest') := by
  refine (alike_forceList rests).bind fun l l' lists => ?_
  refine (LazyList.alike_trail (fun _ _ lasts => ?_) (fun _ _ => .pure) bounds lists firsts).bind
    fun _ _ => alike_tail
  exact ScriptLike.submit lasts none (Alike.pure rfl)

theorem alike_nextOfRally (hosted : M.hosted) (bounds : M.Bounds bound bound') (id : Nat) :
    Alike M B (Option.Rel B.cells) (nextOfRally id bound) (nextOfRally id bound') := by
  induction bound generalizing bound' with
  | zero =>
    refine .exhausted bounds ?_
    rintro rfl
    rfl
  | succ bound ih =>
    obtain ⟨less, rfl, lower⟩ := bounds.succ
    have lists : ∀ i {next next' : Option Ref → Script (Option Ref)},
        (∀ r, next (some r) = pure (some r)) → (∀ r, next' (some r) = pure (some r)) →
        next none = nextOfRally id bound → next' none = nextOfRally id less →
        Alike M B (Option.Rel B.cells) (.act (.listRally id i) next)
          (.act (.listRally id i) next') := by
      intro i next next' answers answers' goesOn goesOn'
      refine ScriptLike.listRally hosted id i fun o o' found => ?_
      cases found with
      | some cells =>
        rw [answers, answers']
        exact Alike.pure (.some cells)
      | none =>
        rw [goesOn, goesOn']
        exact ih lower
    refine ScriptLike.pollRally hosted id fun p p' polls => ?_
    cases polls with
    | exhausted => exact Alike.pure .none
    | reported i => exact lists i (fun _ => rfl) (fun _ => rfl) rfl rfl
    | late i cells =>
      exact (Alike.observe cells).bind fun _ _ _ =>
        lists i (fun _ => rfl) (fun _ => rfl) rfl rfl

theorem alike_rallyCells (hosted : M.hosted) (bounds : M.Bounds bound bound') (id : Nat) :
    Alike M B (LazyListLike B) (rallyCells bound id) (rallyCells bound' id) := by
  refine (alike_nextOfRally hosted bounds id).bind fun o o' found => ?_
  cases found with
  | none => exact .pure .nil
  | some heads =>
    exact (Alike.suspend (.rally hosted)).bind fun _ _ tails => .pure (.cons heads tails)

theorem alike_submitAll (id i : Nat) {rs rs' : List Ref} (likes : RefsLike B rs rs') :
    Alike M B Eq (submitAll id i rs) (submitAll id i rs') := by
  induction likes generalizing i with
  | nil => exact .pure rfl
  | cons first _ ih =>
    exact ScriptLike.submit first (some (id, i)) (ih (i + 1))

theorem alike_rallyAll (hosted : M.hosted) (bounds : M.Bounds bound bound')
    (cells : B.cells arguments arguments') :
    Alike M B (OutcomeLike M B) (rallyAll bound arguments) (rallyAll bound' arguments') := by
  refine (alike_forceList cells).bind fun l l' lists => ?_
  refine (LazyList.alike_elements bounds lists).bind fun rs rs' likes => ?_
  refine ScriptLike.openRally hosted likes fun id => ?_
  refine (alike_submitAll id 0 likes).bind fun _ _ _ => ?_
  exact (alike_rallyCells hosted bounds id).bind fun _ _ all => alike_answer (.list all)

theorem alike_write (hosted : M.hosted) (sink : Sink) (text : String)
    {next : Except FileError Unit → Script Outcome} (written : next (.ok ()) = answer (.list .nil))
    (refused : ∀ e, next (.error e) = fail (.file e)) :
    Alike M B (OutcomeLike M B) (.ask (.write sink text) next) (.ask (.write sink text) next) := by
  refine ScriptLike.ask hosted fun a => ?_
  cases a with
  | ok _ =>
    rw [written]
    exact alike_answer (.list .nil)
  | error e =>
    rw [refused]
    exact Alike.fail _

theorem alike_writeTo (hosted : M.hosted) (bounds : M.Bounds bound bound')
    (cells : B.cells arguments arguments') {separator separator' ending ending' file file' mode
      mode' : Ref} (separators : B.cells separator separator') (endings : B.cells ending ending')
    (files : B.cells file file') (modes : B.cells mode mode') :
    Alike M B (OutcomeLike M B) (writeTo bound arguments separator ending file mode)
      (writeTo bound' arguments' separator' ending' file' mode') := by
  refine (alike_forceString separators).bind ?_
  rintro apart _ rfl
  refine (alike_forceList cells).bind fun l l' lists => ?_
  refine (LazyList.alike_walk (L := Eq) ?_ bounds lists rfl).bind ?_
  · rintro parts _ x x' rfl heads
    refine (Alike.force heads).bind fun v v' values => ?_
    refine (Value.alike_text bounds values).bind ?_
    rintro text _ rfl
    exact .pure (.yield rfl)
  · rintro parts _ rfl
    refine (alike_forceString endings).bind ?_
    rintro last _ rfl
    refine (Alike.force files).bind fun v v' sinks => ?_
    cases sinks with
    | number x =>
      dsimp only
      split
      · exact alike_write hosted _ _ rfl fun _ => rfl
      · split
        · exact alike_write hosted _ _ rfl fun _ => rfl
        · exact .fail _
    | string path =>
      refine (alike_forceNumber modes).bind ?_
      rintro n _ rfl
      exact alike_write hosted _ _ rfl fun _ => rfl
    | _ => exact .fail _

theorem alike_read (hosted : M.hosted) (source : Source)
    {next : Except FileError String → Script Outcome}
    (read : ∀ text, next (.ok text) = answer (.string text))
    (refused : ∀ e, next (.error e) = fail (.file e)) :
    Alike M B (OutcomeLike M B) (.ask (.read source) next) (.ask (.read source) next) := by
  refine ScriptLike.ask hosted fun a => ?_
  cases a with
  | ok text =>
    rw [read]
    exact alike_answer (.string text)
  | error e =>
    rw [refused]
    exact Alike.fail _

theorem alike_readFrom (hosted : M.hosted) (cells : B.cells r r') :
    Alike M B (OutcomeLike M B) (readFrom r) (readFrom r') := by
  refine (Alike.force cells).bind fun v v' sources => ?_
  cases sources with
  | number x =>
    dsimp only
    split
    · exact alike_read hosted _ (fun _ => rfl) fun _ => rfl
    · exact .fail _
  | string path => exact alike_read hosted _ (fun _ => rfl) fun _ => rfl
  | _ => exact .fail _

end Builtin

section
variable {rs rs' : List Ref} {P : List Ref → List Ref → Prop}

@[elab_as_elim]
theorem RefsLike.one (likes : RefsLike B rs rs') (count : rs.length = 1)
    (each : ∀ r r', B.cells r r' → P [r] [r']) : P rs rs' := by
  rcases likes with _ | ⟨first, _ | ⟨second, likes⟩⟩
  · simp at count
  · exact each _ _ first
  · simp at count

@[elab_as_elim]
theorem RefsLike.two (likes : RefsLike B rs rs') (count : rs.length = 2)
    (each : ∀ r r' x x', B.cells r r' → B.cells x x' → P [r, x] [r', x']) : P rs rs' := by
  rcases likes with _ | ⟨first, likes⟩
  · simp at count
  · refine RefsLike.one likes (by simpa using count) ?_
    exact fun x x' second => each _ _ x x' first second

@[elab_as_elim]
theorem RefsLike.three (likes : RefsLike B rs rs') (count : rs.length = 3)
    (each : ∀ r r' x x' y y', B.cells r r' → B.cells x x' → B.cells y y' →
      P [r, x, y] [r', x', y']) : P rs rs' := by
  rcases likes with _ | ⟨first, likes⟩
  · simp at count
  · refine RefsLike.two likes (by simpa using count) ?_
    exact fun x x' y y' second third => each _ _ x x' y y' first second third

@[elab_as_elim]
theorem RefsLike.five (likes : RefsLike B rs rs') (count : rs.length = 5)
    (each : ∀ a a' b b' c c' d d' e e', B.cells a a' → B.cells b b' → B.cells c c' →
      B.cells d d' → B.cells e e' → P [a, b, c, d, e] [a', b', c', d', e']) : P rs rs' := by
  rcases likes with _ | ⟨first, _ | ⟨second, likes⟩⟩
  · simp at count
  · simp at count
  · refine RefsLike.three likes (by simpa using count) ?_
    exact fun x x' y y' z z' third fourth fifth =>
      each _ _ _ _ x x' y y' z z' first second third fourth fifth

end

/-- What the script of a body, or of other work, comes to; no knot needs to be tied. -/
def Settled (M : Manner) (B : Bond) (_ : Held) (x x' : Except Fault Outcome) : Prop :=
  ResultLike M (OutcomeLike M B) x x'

theorem Alike.settled {s s' : Script Outcome} (like : Alike M B (OutcomeLike M B) s s') :
    ScriptLike M B (Settled M B) .nothing s s' := by
  have again : ScriptLike M B (Settled M B) .nothing (s >>= Pure.pure) (s' >>= Pure.pure) :=
    .bind_unchanged like (fun _ _ faults => .error faults) fun _ _ results => .done (.ok results)
  simpa using again

/-- The bond of a script that holds a knot. -/
def Bond.tie (B : Bond) (handle handle' : Ref) (made : List (Ref × Ref)) : Bond :=
  B.add ((handle, handle') :: made)

theorem Bond.tie_le {handle handle' : Ref} {made : List (Ref × Ref)}
    (known : ∀ p ∈ (handle, handle') :: made, B.cells p.1 p.2) : B.tie handle handle' made ≤ B := by
  refine ⟨?_, fun _ _ => id⟩
  intro r r' cells
  rcases cells with bonded | mine
  · exact bonded
  · exact known _ mine

/-- What a script comes to that goes on holding a knot, to whose cells it may have added. -/
def Holding (M : Manner) {α β : Type} (handle handle' : Ref)
    (post : List (Ref × Ref) → α → β → Prop) (held : Held) (x : Except Fault α)
    (x' : Except Fault β) : Prop :=
  ∃ made, held = .knot handle handle' made ∧ ResultLike M (post made) x x'

section
variable {handle handle' : Ref} {made : List (Ref × Ref)}

theorem ScriptLike.bind_vacant {γ δ : Type} {post : Held → Except Fault γ → Except Fault δ → Prop}
    {f : Ref → Script γ} {f' : Ref → Script δ}
    (rest : ∀ r r', ScriptLike M B post (.knot r r' []) (f r) (f' r')) :
    ScriptLike M B post .nothing (CallByNeed.alloc .vacant >>= f)
      (CallByNeed.alloc .vacant >>= f') :=
  .vacant rest

theorem ScriptLike.holdValue {v v' : Value}
    (values : ValueLike M (B.tie handle handle' made) v v') :
    ScriptLike M B (Holding M handle handle' fun after r r' => after = (r, r') :: made)
      (.knot handle handle' made) (allocValue v : Script Ref) (allocValue v') :=
  .hold values fun _ _ => .done ⟨_, rfl, .ok rfl⟩

theorem ScriptLike.bind_holding {α β γ δ : Type} {post : List (Ref × Ref) → α → β → Prop}
    {post' : Held → Except Fault γ → Except Fault δ → Prop} {s : Script α} {s' : Script β}
    {held : Held} {f : α → Script γ} {f' : β → Script δ}
    (like : ScriptLike M B (Holding M handle handle' post) held s s')
    (fails : ∀ made e e', FaultLike M e e' →
      post' (.knot handle handle' made) (.error e) (.error e'))
    (rest : ∀ made a a', post made a a' →
      ScriptLike M B post' (.knot handle handle' made) (f a) (f' a')) :
    ScriptLike M B post' held (s >>= f) (s' >>= f') := by
  refine like.bind ?_ ?_
  · rintro _ e e' ⟨made, rfl, ⟨⟩⟩
    exact fails made e e' ‹_›
  · rintro _ a a' ⟨made, rfl, ⟨⟩⟩
    exact rest made a a' ‹_›

/-- A fixed point for each function of a list, each about the same handle. -/
theorem ScriptLike.holdFixedPoints {fs fs' : List Ref} (functions : RefsLike B fs fs') :
    ScriptLike M B
      (Holding M handle handle' fun after rs rs' =>
        RefsLike (B.tie handle handle' after) rs rs' ∧ made ⊆ after)
      (.knot handle handle' made)
      (fs.mapM fun f => (allocValue (.native (.fixedPoint f handle)) : Script Ref))
      (fs'.mapM fun f => allocValue (.native (.fixedPoint f handle'))) := by
  induction functions generalizing made with
  | nil =>
    simp only [List.mapM_nil]
    exact .done ⟨made, rfl, .ok ⟨.nil, by simp⟩⟩
  | @cons f f' _ _ first _ ih =>
    simp only [List.mapM_cons]
    have value : ValueLike M (B.tie handle handle' made) (.native (.fixedPoint f handle))
        (.native (.fixedPoint f' handle')) := .native (.fixedPoint (.inl first) (.inr (by simp)))
    refine (holdValue value).bind_holding ?_ ?_
    · intro made e e' faults
      exact ⟨_, rfl, .error faults⟩
    · rintro _ r r' rfl
      refine ih.bind_holding ?_ ?_
      · intro made e e' faults
        exact ⟨_, rfl, .error faults⟩
      · rintro after rs rs' ⟨likes, grown⟩
        have mine : (r, r') ∈ after := grown (by simp)
        refine .done ⟨after, rfl, .ok ⟨.cons (.inr (by simp [mine])) likes, ?_⟩⟩
        exact fun p old => grown (by simp [old])

/-- A list of held elements, all its cells made meanwhile. -/
theorem ScriptLike.holdList {rs rs' : List Ref}
    (elements : RefsLike (B.tie handle handle' made) rs rs') {l l' : LazyList}
    (lists : LazyListLike (B.tie handle handle' made) l l') :
    ScriptLike M B
      (Holding M handle handle' fun after l l' => LazyListLike (B.tie handle handle' after) l l')
      (.knot handle handle' made) (rs.foldlM LazyList.push l : Script LazyList)
      (rs'.foldlM LazyList.push l') := by
  induction rs generalizing made rs' l l' with
  | nil =>
    cases elements
    exact .done ⟨made, rfl, .ok lists⟩
  | cons r rs ih =>
    cases elements with
    | @cons _ r' _ _ first others =>
      simp only [List.foldlM_cons]
      have fails : ∀ after e e', FaultLike M e e' →
          Holding M handle handle'
            (fun after l l' => LazyListLike (B.tie handle handle' after) l l')
            (.knot handle handle' after) (.error e) (.error e') :=
        fun after e e' faults => ⟨after, rfl, .error faults⟩
      unfold LazyList.push
      rw [bind_assoc, bind_assoc]
      refine (holdValue (.list lists)).bind_holding fails ?_
      rintro _ tail tail' rfl
      have grows : B.tie handle handle' made ≤ B.tie handle handle' ((tail, tail') :: made) := by
        refine ⟨?_, fun _ _ => id⟩
        rintro x x' (bonded | mine)
        · exact .inl bonded
        · refine .inr ?_
          simp only [List.mem_cons] at mine ⊢
          tauto
      exact ih (RefsLike.mono grows others) (.cons (grows.1 _ _ first) (.inr (by simp)))

/-- The knot is tied, and its value is the answer. -/
theorem ScriptLike.tied {v v' : Value} (values : ValueLike M (B.tie handle handle' made) v v') :
    ScriptLike M B (Settled M B) (.knot handle handle' made)
      (do
        fillHandle handle (← allocValue v)
        answer v)
      (do
        fillHandle handle' (← allocValue v')
        answer v') := by
  refine .hold values fun r r' => ?_
  refine .fill (by simp) (fun known => ?_) (.panic .notVacant)
  have values_known : ValueLike M B v v' := by
    refine values.mono (Bond.tie_le ?_)
    intro p held
    refine known p ?_
    simp only [List.mem_cons] at held ⊢
    tauto
  exact .done (.ok (.value values_known))

end

namespace Builtin
variable {function function' : Ref}

theorem like_fixedPoint (functions : B.cells function function') :
    ScriptLike M B (Settled M B) .nothing (fixedPoint function) (fixedPoint function') := by
  refine .bind_vacant fun handle handle' => ?_
  exact .tied (.native (.fixedPoint (.inl functions) (.inr (by simp))))

theorem like_fixedPoints (bounds : M.Bounds bound bound') (functions : B.cells function function') :
    ScriptLike M B (Settled M B) .nothing (fixedPoints bound function)
      (fixedPoints bound' function') := by
  refine .bind_vacant fun handle handle' => ?_
  have fails : ∀ made e e', FaultLike M e e' →
      Settled M B (.knot handle handle' made) (.error e) (.error e') :=
    fun _ _ _ faults => .error faults
  have held_list := ScriptLike.carry (demandsOnly_forceList function)
    (alike_forceList (M := M) functions) (.knot handle handle' [])
  refine held_list.bind_unchanged (fails []) fun l l' lists => ?_
  have held_elements := ScriptLike.carry (LazyList.demandsOnly_elements bound l)
    (LazyList.alike_elements bounds lists) (.knot handle handle' [])
  refine held_elements.bind_unchanged (fails []) fun fs fs' likes => ?_
  refine (ScriptLike.holdFixedPoints likes).bind_holding fails ?_
  rintro made rs rs' ⟨results, _⟩
  refine (ScriptLike.holdList results.reverse .nil).bind_holding fails fun made l l' all => ?_
  exact .tied (.list all)

/-- Any number of parameters but the right one is too few. -/
theorem run_of_length_ne (bound : Nat) (b : Builtin) (rs : List Ref)
    (wrong : rs.length ≠ b.signature.arity) : b.run bound rs = .panic .missingParameter := by
  fun_cases run bound b rs <;>
    first
    | rfl
    | simp [signature, Signature.plain, Signature.arity, Half.arity, writeOptionals] at wrong

end Builtin

namespace Builtin

/-- A builtin that needs the host is run only where there is one. -/
theorem like_run {b : Builtin} (permitted : M.Permits false b) (bounds : M.Bounds bound bound')
    {rs rs' : List Ref} (likes : RefsLike B rs rs') :
    ScriptLike M B (Settled M B) .nothing (b.run bound rs) (b.run bound' rs') := by
  have hosts : b.needsHost = true → M.hosted := by
    intro needs
    rcases permitted with hosted | no | quiet
    · exact hosted
    · exact absurd no (by decide)
    · rw [needs] at quiet
      exact absurd quiet (by decide)
  by_cases count : rs.length = b.signature.arity
  · cases b with
    | sum => exact likes.one count fun _ _ x => (alike_sumOf bounds x).settled
    | product => exact likes.one count fun _ _ x => (alike_productOf bounds x).settled
    | difference =>
      exact likes.two count fun _ _ _ _ x y => (alike_foldFrom bounds _ _ x y).settled
    | quotient =>
      exact likes.two count fun _ _ _ _ x y => (alike_foldFrom bounds _ _ x y).settled
    | floorQuotient =>
      exact likes.two count fun _ _ _ _ x y => (alike_foldFrom bounds _ _ x y).settled
    | remainder => exact likes.two count fun _ _ _ _ x y => (alike_binary _ x y).settled
    | power => exact likes.two count fun _ _ _ _ x y => (alike_binary _ x y).settled
    | isInt => exact likes.one count fun _ _ x => (alike_isIntegral x).settled
    | equal => exact likes.one count fun _ _ x => (alike_allEqual bounds x).settled
    | less => exact likes.one count fun _ _ x => (alike_chained bounds _ _ x).settled
    | lessEq => exact likes.one count fun _ _ x => (alike_chained bounds _ _ x).settled
    | greater => exact likes.one count fun _ _ x => (alike_chained bounds _ _ x).settled
    | greaterEq => exact likes.one count fun _ _ x => (alike_chained bounds _ _ x).settled
    | compare => exact likes.two count fun _ _ _ _ x y => (alike_compareTwo bounds x y).settled
    | isOrdered => exact likes.one count fun _ _ x => (alike_hasOrder x).settled
    | merge => exact likes.two count fun _ _ _ _ x y => (alike_mergeAll bounds x y).settled
    | append => exact likes.two count fun _ _ _ _ x y => (alike_appendAll x y).settled
    | first =>
      refine likes.one count fun _ _ x => Alike.settled ?_
      refine (alike_forceList x).bind fun _ _ lists => ?_
      exact (LazyList.alike_first lists).bind fun _ _ => alike_tail
    | rest =>
      refine likes.one count fun _ _ x => Alike.settled ?_
      refine (alike_forceList x).bind fun _ _ lists => ?_
      exact (LazyList.alike_rest lists).bind fun _ _ => alike_tail
    | prepend => exact likes.one count fun _ _ x => (alike_prependAll bounds x).settled
    | insert =>
      exact likes.three count fun _ _ _ _ _ _ x y z => (alike_insertInto bounds x y z).settled
    | delete => exact likes.two count fun _ _ _ _ x y => (alike_deleteFrom bounds x y).settled
    | «include» => exact likes.two count fun _ _ _ _ x y => (alike_includes bounds x y).settled
    | index => exact likes.two count fun _ _ _ _ x y => (alike_indexOf bounds x y).settled
    | size => exact likes.one count fun _ _ x => (alike_sizeOf bounds x).settled
    | toList => exact likes.one count fun _ _ x => (alike_toLazyList x).settled
    | list => exact likes.one count fun _ _ x => (alike_tail x).settled
    | dict => exact likes.one count fun _ _ x => (alike_dictOf bounds x).settled
    | choose =>
      exact likes.three count fun _ _ _ _ _ _ x y z => (alike_chooseBranch x y z).settled
    | partialCall =>
      refine likes.three count fun _ _ _ _ _ _ x y z => ?_
      exact (alike_answer (.native (.partialCall x y z))).settled
    | typeOf => exact likes.one count fun _ _ x => (alike_typeName x).settled
    | toStr => exact likes.one count fun _ _ x => (alike_textOf bounds x).settled
    | dump => exact likes.one count fun _ _ x => (alike_dumpOf bounds x).settled
    | error => exact likes.two count fun _ _ _ _ x y => (alike_raiseCustom x y).settled
    | «catch» => exact likes.one count fun _ _ x => (alike_catchFault x).settled
    | fix => exact likes.one count fun _ _ x => like_fixedPoint x
    | fixAll => exact likes.one count fun _ _ x => like_fixedPoints bounds x
    | seq => exact likes.two count fun _ _ _ _ x y => (alike_inSequence bounds x y).settled
    | effectSeq =>
      refine likes.two count fun _ _ _ _ x y => Alike.settled ?_
      exact alike_effectsInSequence (hosts rfl) bounds x y
    | par => exact likes.two count fun _ _ _ _ x y => (alike_inParallel bounds x y).settled
    | rally => exact likes.one count fun _ _ x => (alike_rallyAll (hosts rfl) bounds x).settled
    | write =>
      refine likes.five count fun _ _ _ _ _ _ _ _ _ _ a b c d e => Alike.settled ?_
      exact alike_writeTo (hosts rfl) bounds a b c d e
    | read => exact likes.one count fun _ _ x => (alike_readFrom (hosts rfl) x).settled
  · have count' : rs'.length ≠ b.signature.arity := likes.length_eq ▸ count
    rw [run_of_length_ne bound b rs count, run_of_length_ne bound' b rs' count']
    exact .panic .missingParameter

end Builtin
end
end CallByNeed
