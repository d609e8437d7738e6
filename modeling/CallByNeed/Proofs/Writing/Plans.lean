import CallByNeed.Proofs.Concatenation.Extents
import CallByNeed.Proofs.Reading.Values
import CallByNeed.Proofs.Safety.Threads

/- What `write` finds out before it writes. All its forcing makes up one script that only demands
   values; what that script comes to is the text of the arguments and where it goes, and one request
   to the host is left. -/
namespace CallByNeed

namespace Script

theorem isReader_forceString (r : Ref) : (forceString r).IsReader := by
  refine (isReader_force r).bind fun v => ?_
  cases v <;> first | exact .done _ | exact .raise _

theorem isReader_forceNumber (r : Ref) : (forceNumber r).IsReader := by
  refine (isReader_force r).bind fun v => ?_
  cases v <;> first | exact .done _ | exact .raise _

end Script

namespace Value

theorem isReader_dumpWith {f : Value → Script String} (texts : ∀ v, (f v).IsReader) (v : Value) :
    (dumpWith f v).IsReader := by
  cases v with
  | error e => exact .raise e
  | string | function | native | effect => exact .done _
  | bool | number | list | dict => exact texts _

theorem isReader_dumpEntries {f : Value → Script String} (each : ∀ v, (f v).IsReader)
    (es : List (Key × Ref)) : (dumpEntries f es).IsReader := by
  induction es with
  | nil => exact .done []
  | cons e es ih =>
    refine (Script.isReader_force e.2).bind fun v => (each v).bind fun x => ?_
    exact ih.bind fun _ => .done _

theorem isReader_text (bound : Nat) (v : Value) : (text bound v).IsReader := by
  induction bound generalizing v with
  | zero => exact .stall
  | succ bound ih =>
    cases v with
    | list l =>
      refine (LazyList.isReader_walk (fun parts r => ?_) bound l []).bind fun _ => .done _
      exact (Script.isReader_force r).bind fun v => (isReader_dumpWith ih v).bind fun _ => .done _
    | dict d => exact (isReader_dumpEntries (isReader_dumpWith ih) d.entries).bind fun _ => .done _
    | error e => exact .raise e
    | function | native | effect => exact .raise _
    | bool | number | string => exact .done _

end Value

namespace Builtin

/-- Where a text goes. -/
def sinkOf (file mode : Ref) : Script Sink := do
  match ← force file with
  | .number x =>
    if x.same .one then pure .stdout
    else if x.same (.ofDyadic false 2 0) then pure .stderr
    else fail .badSink
  | .string path => do
    pure (.file path ((← forceNumber mode).saturate 0xFFFFFFFF))
  | _ => fail .badSink

/-- The texts of the elements of a list, the last one first. -/
def textsOf (bound : Nat) (arguments : Ref) : Script (List String) := do
  (← forceList arguments).walk (fun parts r => do
    pure (.yield ((← (← force r).text bound) :: parts))) bound []

/-- All that is found out before anything is written. -/
def planOf (bound : Nat) (arguments separator ending file mode : Ref) : Script (Sink × String) := do
  let separator ← forceString separator
  let parts ← textsOf bound arguments
  let ending ← forceString ending
  let sink ← sinkOf file mode
  pure (sink, separator.intercalate parts.reverse ++ ending)

/-- The one request. -/
def send (p : Sink × String) : Script Outcome :=
  .ask (.write p.1 p.2) fun
    | .ok () => answer (.list .nil)
    | .error e => fail (.file e)

theorem send_eq (sink : Sink) (text : String) {next : Except FileError Unit → Script Outcome}
    (written : next (.ok ()) = answer (.list .nil)) (refused : ∀ e, next (.error e) = fail (.file e)) :
    Script.ask (.write sink text) next = send (sink, text) := by
  refine congrArg (Script.ask _) (funext fun a => ?_)
  cases a with
  | ok => exact written
  | error e => exact refused e

theorem writeTo_eq (bound : Nat) (arguments separator ending file mode : Ref) :
    writeTo bound arguments separator ending file mode =
      planOf bound arguments separator ending file mode >>= send := by
  simp only [writeTo, planOf, textsOf, sinkOf, bind_assoc, pure_bind]
  refine congrArg _ (funext fun _ => congrArg _ (funext fun _ => congrArg _ (funext fun _ =>
    congrArg _ (funext fun _ => congrArg _ (funext fun v => ?_)))))
  cases v with
  | number x =>
    dsimp only
    split
    · exact send_eq _ _ rfl fun _ => rfl
    · split
      · exact send_eq _ _ rfl fun _ => rfl
      · rfl
  | string path =>
    simp only [bind_assoc, pure_bind]
    exact congrArg _ (funext fun x => send_eq _ _ rfl fun _ => rfl)
  | _ => rfl

/-! ### Plans are quiet -/

section
variable {bound : Nat} {arguments separator ending file mode : Ref}

theorem isReader_sinkOf (file mode : Ref) : (sinkOf file mode).IsReader := by
  refine (Script.isReader_force file).bind fun v => ?_
  cases v with
  | number x =>
    dsimp only
    split
    · exact .done _
    · split
      · exact .done _
      · exact .raise _
  | string path => exact (Script.isReader_forceNumber mode).bind fun x => .done _
  | _ => exact .raise _

theorem isReader_textsOf (bound : Nat) (arguments : Ref) : (textsOf bound arguments).IsReader := by
  refine (Script.isReader_forceList arguments).bind fun l => ?_
  refine LazyList.isReader_walk (fun parts r => ?_) bound l []
  exact (Script.isReader_force r).bind fun v => (Value.isReader_text bound v).bind fun _ => .done _

theorem isReader_planOf (bound : Nat) (arguments separator ending file mode : Ref) :
    (planOf bound arguments separator ending file mode).IsReader := by
  refine (Script.isReader_forceString separator).bind fun _ => ?_
  refine (isReader_textsOf bound arguments).bind fun _ => ?_
  refine (Script.isReader_forceString ending).bind fun _ => ?_
  exact (isReader_sinkOf file mode).bind fun _ => .done _

theorem tame_sinkOf {quiet : Prop} {held : Option Ref} (file mode : Ref) :
    (sinkOf file mode).Tame quiet held := by
  refine (Script.tame_force file).bind fun v => ?_
  cases v with
  | number x =>
    dsimp only
    split
    · exact Script.tame_pure _
    · split
      · exact Script.tame_pure _
      · exact Script.gives_fail _
  | string path => exact (Script.tame_forceNumber mode).bind fun x => Script.tame_pure _
  | _ => exact Script.gives_fail _

theorem tame_textsOf {quiet : Prop} {held : Option Ref} (bound : Nat) (arguments : Ref) :
    (textsOf bound arguments).Tame quiet held := by
  refine (Script.tame_forceList arguments).bind fun l => ?_
  refine LazyList.tame_walk (fun parts r => ?_) bound l []
  exact (Script.tame_force r).bind fun v =>
    (Value.tame_text bound v).bind fun _ => Script.tame_pure _

theorem tame_planOf {quiet : Prop} {held : Option Ref}
    (bound : Nat) (arguments separator ending file mode : Ref) :
    (planOf bound arguments separator ending file mode).Tame quiet held := by
  refine (Script.tame_forceString separator).bind fun _ => ?_
  refine (tame_textsOf bound arguments).bind fun _ => ?_
  refine (Script.tame_forceString ending).bind fun _ => ?_
  exact (tame_sinkOf file mode).bind fun _ => Script.tame_pure _

variable {M : Manner} {B : Bond} {bound' : Nat}

theorem alike_sinkOf {file' mode' : Ref} (files : B.cells file file') (modes : B.cells mode mode') :
    Alike M B Eq (sinkOf file mode) (sinkOf file' mode') := by
  refine (Alike.force files).bind fun v v' sinks => ?_
  cases sinks with
  | number x =>
    dsimp only
    split
    · exact .pure rfl
    · split
      · exact .pure rfl
      · exact .fail _
  | string path =>
    refine (alike_forceNumber modes).bind ?_
    rintro n _ rfl
    exact .pure rfl
  | _ => exact .fail _

theorem alike_textsOf {arguments' : Ref} (bounds : M.Bounds bound bound')
    (cells : B.cells arguments arguments') :
    Alike M B Eq (textsOf bound arguments) (textsOf bound' arguments') := by
  refine (alike_forceList cells).bind fun l l' lists => ?_
  refine LazyList.alike_walk (L := Eq) ?_ bounds lists rfl
  rintro parts _ x x' rfl heads
  refine (Alike.force heads).bind fun v v' values => ?_
  refine (Value.alike_text bounds values).bind ?_
  rintro text _ rfl
  exact .pure (.yield rfl)

theorem alike_planOf {arguments' separator' ending' file' mode' : Ref}
    (bounds : M.Bounds bound bound') (cells : B.cells arguments arguments')
    (separators : B.cells separator separator') (endings : B.cells ending ending')
    (files : B.cells file file') (modes : B.cells mode mode') :
    Alike M B Eq (planOf bound arguments separator ending file mode)
      (planOf bound' arguments' separator' ending' file' mode') := by
  refine (alike_forceString separators).bind ?_
  rintro apart _ rfl
  refine (alike_textsOf bounds cells).bind ?_
  rintro parts _ rfl
  refine (alike_forceString endings).bind ?_
  rintro last _ rfl
  refine (alike_sinkOf files modes).bind ?_
  rintro sink _ rfl
  exact .pure rfl

end

end Builtin

/-! ### What plans come to -/

/-- The cell has a value, and this is its text. -/
def Heap.HasText (bound : Nat) (h : Heap) (r : Ref) (text : String) : Prop :=
  ∃ v, h.Replies .pure r v ∧ (v.text bound).Reads h (.ok text)

/-- Where a text goes for these values of `file` and `mode`. -/
inductive Heap.Directs (h : Heap) (file mode : Ref) : Sink → Prop
  | stdout {x : Number} (replies : h.Replies .pure file (.number x)) (one : x.same .one = true) :
      Directs h file mode .stdout
  | stderr {x : Number} (replies : h.Replies .pure file (.number x))
      (two : x.same (.ofDyadic false 2 0) = true) : Directs h file mode .stderr
  | file {path : String} {x : Number} (replies : h.Replies .pure file (.string path))
      (modes : h.Replies .pure mode (.number x)) :
      Directs h file mode (.file path (x.saturate 0xFFFFFFFF))

/-- The texts of all arguments, with the separator between them and the end behind them. -/
def Heap.Composes (bound : Nat) (h : Heap) (arguments separator ending : Ref) (text : String) :
    Prop :=
  ∃ (rs visited : List Ref) (texts : List String) (between last : String),
    h.Shows arguments (.ofList rs) visited ∧ List.Forall₂ (h.HasText bound) rs texts ∧
    h.Replies .pure separator (.string between) ∧ h.Replies .pure ending (.string last) ∧
    text = between.intercalate texts ++ last

section
variable {h : Heap} {bound n : Nat} {r arguments separator ending file mode : Ref} {l : LazyList}

theorem Script.of_reads_bind {α β : Type} {m : Script α} {f : α → Script β} {b : β}
    (reads : (m >>= f).Reads h (.ok b)) : ∃ a, m.Reads h (.ok a) ∧ (f a).Reads h (.ok b) := by
  obtain found | ⟨e, _, no⟩ := reads_bind_iff.1 reads
  · exact found
  · cases no

theorem Script.replies_of_reads_force {v : Value} (reads : (force r).Reads h (.ok v)) :
    h.Replies .pure r v := by
  obtain ⟨u, replies, same⟩ := reads_demand_iff.1 reads
  cases u <;> cases same <;> exact replies

theorem Script.replies_of_reads_forceString {text : String}
    (reads : (forceString r).Reads h (.ok text)) : h.Replies .pure r (.string text) := by
  obtain ⟨v, forced, string⟩ := of_reads_bind reads
  cases v with
  | string =>
    cases string
    exact replies_of_reads_force forced
  | _ => cases string

theorem Script.replies_of_reads_forceNumber {x : Number}
    (reads : (forceNumber r).Reads h (.ok x)) : h.Replies .pure r (.number x) := by
  obtain ⟨v, forced, number⟩ := of_reads_bind reads
  cases v with
  | number =>
    cases number
    exact replies_of_reads_force forced
  | _ => cases number

theorem Script.listed_of_reads_forceList (reads : (forceList r).Reads h (.ok l)) :
    h.Listed r (.ok l) := by
  obtain ⟨v, forced, list⟩ := of_reads_bind reads
  cases v with
  | list =>
    cases list
    exact ⟨_, replies_of_reads_force forced, rfl⟩
  | _ => cases list

/-- A loop over the elements of a list that has come to texts has seen the list to its end. -/
theorem LazyList.of_reads_texts {parts all : List String}
    (reads : (l.walk (fun parts r => do
      pure (.yield ((← (← force r).text bound) :: parts))) n parts).Reads h (.ok all)) :
    ∃ rs texts, (∀ r, h.Listed r (.ok l) → ∃ visited, h.Shows r (.ofList rs) visited) ∧
      List.Forall₂ (h.HasText bound) rs texts ∧ all = texts.reverse ++ parts := by
  induction n generalizing l parts with
  | zero => cases reads
  | succ n ih =>
    cases l with
    | nil =>
      cases reads
      exact ⟨[], [], fun r list => ⟨_, .nil list⟩, .nil, rfl⟩
    | cons head tail =>
      obtain ⟨step, visits, rest⟩ := Script.of_reads_bind reads
      obtain ⟨v, forced, visits⟩ := Script.of_reads_bind visits
      obtain ⟨text, texts, visits⟩ := Script.of_reads_bind visits
      cases visits
      obtain ⟨l', list, rest⟩ := Script.of_reads_bind rest
      obtain ⟨rs, others, shows, has, rfl⟩ := ih rest
      obtain ⟨visited, more⟩ := shows tail (Script.listed_of_reads_forceList list)
      exact ⟨head :: rs, text :: others, fun r list => ⟨_, .cons list more⟩,
        .cons ⟨v, Script.replies_of_reads_force forced, texts⟩ has, by simp⟩

namespace Builtin

theorem directs_of_reads {sink : Sink} (reads : (sinkOf file mode).Reads h (.ok sink)) :
    h.Directs file mode sink := by
  obtain ⟨v, forced, rest⟩ := Script.of_reads_bind reads
  have replies := Script.replies_of_reads_force forced
  cases v with
  | number x =>
    dsimp only at rest
    split at rest
    · next one =>
      cases rest
      exact .stdout replies one
    · split at rest
      · next two =>
        cases rest
        exact .stderr replies two
      · cases rest
  | string path =>
    obtain ⟨x, modes, rest⟩ := Script.of_reads_bind rest
    cases rest
    exact .file replies (Script.replies_of_reads_forceNumber modes)
  | _ => cases rest

/-- What has been found out is what the cells say. -/
theorem composes_of_reads {p : Sink × String}
    (reads : (planOf bound arguments separator ending file mode).Reads h (.ok p)) :
    h.Directs file mode p.1 ∧ h.Composes bound arguments separator ending p.2 := by
  obtain ⟨between, apart, reads⟩ := Script.of_reads_bind reads
  obtain ⟨parts, walks, reads⟩ := Script.of_reads_bind reads
  obtain ⟨last, ends, reads⟩ := Script.of_reads_bind reads
  obtain ⟨sink, directs, reads⟩ := Script.of_reads_bind reads
  cases reads
  obtain ⟨l, list, walks⟩ := Script.of_reads_bind walks
  obtain ⟨rs, texts, shows, has, rfl⟩ := LazyList.of_reads_texts walks
  obtain ⟨visited, shows⟩ := shows _ (Script.listed_of_reads_forceList list)
  refine ⟨directs_of_reads directs, rs, visited, texts, between, last, shows, has,
    Script.replies_of_reads_forceString apart, Script.replies_of_reads_forceString ends, ?_⟩
  simp

end Builtin
end
end CallByNeed
