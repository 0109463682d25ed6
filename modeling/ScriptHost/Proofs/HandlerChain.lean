import ScriptHost.Proofs.Heap.Search
import ScriptHost.Proofs.Host.Predicates
import ScriptHost.Proofs.Uncatchable

/-!
# Handlers are asked in a chain

A fault is offered to the handlers that are installed for its class at that moment, newest first.
What a handler does to the handlers, or to the report that it is given, has no part in who is asked
next: that is fixed at the start. `Asked` says how a handler that is asked can reply, whatever runs
its body: it answers a Boolean, it answers something that cannot be read as one, it raises, or it
cannot be called at all. `Chain` is a sequence of handlers that are asked one after the other, each
in the state that the one before it has left, all with the same report. The first that does not
accept ends the chain (`HostM.offer_chain`), so those that are asked are a prefix of those
installed, and the last reply is the verdict.

The report is a new structure that has the location and the message in it (`HostM.run_errorReport`);
it can always be made. `Consulted` puts this together for a fault that is offered, and
`Host.handlers_consulted` adds what a guard makes of the verdict, and that a handler which is
installed comes before those that were there.
-/

set_option autoImplicit false

namespace ScriptHost

open HostM

/-! ## The report -/

/-- An unlocked text. -/
def Cell.text (text : String) : Cell := ⟨.leaf (.string text), false⟩

/-- A structure of the type for handlers, with a location and a message. -/
def Record.report (location message : Handle) : Record Handle :=
  ⟨some ⟨some "ErrorT", [("Location", .string), ("Message", .string)]⟩,
    [("Location", location), ("Message", message)]⟩

/-- The value is an unlocked report with these two texts. -/
def Heap.Reports (h : Heap) (report : Handle) (location message : String) : Prop :=
  ∃ l m, h.cell report = ⟨.record (.report l m), false⟩ ∧ h.cell l = .text location ∧
    h.cell m = .text message

namespace HostM

variable {h : Heap} {report target source : Handle} {old text : String}

theorem made_text (held : h.cell target = .text text) : h.Made target :=
  Heap.made_of_unlocked (by rw [Heap.isLocked, held]; rfl)

/-- A text is assigned to a text. -/
theorem run_assignText (held : h.cell target = .text old) (given : h.cell source = .text text)
    (other : target ≠ source) :
    HeapM.assign target source h = .ok () (h.setCell target (.text text)) := by
  refine HeapM.run_assignLeaf held (by simp) other ?_
  rw [Heap.data, given]
  rfl

/-- A member that is a text gets another text, and all else stays. -/
theorem run_setText {r : Record Handle} {name : String} (structured : h.data report = .record r)
    (member : r.get name = .ok target) (held : h.cell target = .text old) (text : String) :
    ∃ h', setText report name text h = .ok () h' ∧ h.size ≤ h'.size ∧ h'.cell target = .text text ∧
      ∀ v, h.Made v → v ≠ target → h'.cell v = h.cell v := by
  have made := made_text held
  have other : target ≠ ⟨h.size⟩ := fun same => h.not_made_next (same ▸ made)
  have ext := Heap.extends_push h (.text text)
  have reads : HeapM.dataOf report h = .ok (.record r) h := by
    rw [HeapM.dataOf, HeapM.look, structured]
  have found : HeapM.member report name h = .ok target h := by
    apply (HeapM.bind_of_ok reads _).trans
    simp only [HeapM.of, HeapM.ask, member]
  have new : HeapM.newLeaf (.string text) h = .ok ⟨h.size⟩ (h.push (.text text)) := rfl
  refine ⟨(h.push (.text text)).setCell target (.text text), ?_, ?_, ?_, ?_⟩
  · apply (HeapM.bind_of_ok found _).trans
    apply (HeapM.bind_of_ok new _).trans
    exact run_assignText ((ext.cell target made).trans held) (Heap.cell_push_new h _) other
  · rw [Heap.size_setCell]
    exact ext.size_le
  · exact Heap.cell_setCell_self _ _ _ (ext.made made)
  · intro v old away
    rw [Heap.cell_setCell_ne _ _ away, ext.cell v old]

/-- A report that is being made: what was there before has not changed, and the structure and its
two texts are new. -/
structure Drafts (before h : Heap) (report l m : Handle) (location message : String) : Prop where
  ext : before.Extends h
  new : ¬ before.Made report ∧ ¬ before.Made l ∧ ¬ before.Made m
  apart : report ≠ l ∧ report ≠ m ∧ l ≠ m
  shape : h.cell report = ⟨.record (.report l m), false⟩
  location : h.cell l = .text location
  message : h.cell m = .text message

theorem extends_of_frame {before h' : Heap} (ext : before.Extends h) (grown : h.size ≤ h'.size)
    (new : ¬ before.Made target) (kept : ∀ v, h.Made v → v ≠ target → h'.cell v = h.cell v) :
    before.Extends h' := by
  refine ⟨ext.size_le.trans grown, ?_⟩
  intro v made
  have other : v ≠ target := fun same => new (same ▸ made)
  rw [kept v (ext.made made) other, ext.cell v made]

/-- The structure as it is declared, with two empty texts. -/
theorem run_declare_errorType (h : Heap) :
    ∃ report l m h', HeapM.declare errorType h = .ok report h' ∧ Drafts h h' report l m "" "" := by
  have one := Heap.extends_push h (.text "")
  have two := Heap.extends_push (h.push (.text "")) (.text "")
  have three := Heap.extends_push ((h.push (.text "")).push (.text ""))
    ⟨.record (.report ⟨h.size⟩ ⟨h.size + 1⟩), false⟩
  have first := Heap.cell_push_new h (.text "")
  have second := Heap.cell_push_new (h.push (.text "")) (.text "")
  have third := Heap.cell_push_new ((h.push (.text "")).push (.text ""))
    ⟨.record (.report ⟨h.size⟩ ⟨h.size + 1⟩), false⟩
  simp only [Heap.size_push] at second third
  refine ⟨⟨h.size + 2⟩, ⟨h.size⟩, ⟨h.size + 1⟩, _, ?_, (one.trans two).trans three, ?_, by simp,
    third, ?_, ?_⟩
  · simp only [errorType, HeapM.declare, HeapM.declareMembers]
    simp [Bind.bind, EStateM.bind, HeapM.newLeaf, HeapM.new, HeapM.alloc, Pure.pure, EStateM.pure,
      Cell.text, Record.report, Record.declared, Record.ofMembers, Named.put]
  · simp [Heap.Made]
  · exact ((two.trans three).cell _ (made_text first)).trans first
  · exact (three.cell _ (made_text second)).trans second

namespace Drafts

variable {before : Heap} {l m : Handle} {location message : String}

theorem data (drafts : Drafts before h report l m location message) :
    h.data report = .record (.report l m) := by
  rw [Heap.data, drafts.shape]

theorem made (drafts : Drafts before h report l m location message) : h.Made report :=
  Heap.made_of_unlocked (by rw [Heap.isLocked, drafts.shape])

theorem run_setLocation (drafts : Drafts before h report l m location message) (text : String) :
    ∃ h', setText report "Location" text h = .ok () h' ∧
      Drafts before h' report l m text message := by
  obtain ⟨-, new, -⟩ := drafts.new
  obtain ⟨away, -, apart⟩ := drafts.apart
  have member : (Record.report l m).get "Location" = .ok l := rfl
  obtain ⟨h', run, grown, set, kept⟩ := run_setText drafts.data member drafts.location text
  refine ⟨h', run, extends_of_frame drafts.ext grown new kept, drafts.new,
    drafts.apart, ?_, set, ?_⟩
  · rw [kept _ drafts.made away, drafts.shape]
  · rw [kept _ (made_text drafts.message) apart.symm, drafts.message]

theorem run_setMessage (drafts : Drafts before h report l m location message) (text : String) :
    ∃ h', setText report "Message" text h = .ok () h' ∧
      Drafts before h' report l m location text := by
  obtain ⟨-, -, new⟩ := drafts.new
  obtain ⟨-, away, apart⟩ := drafts.apart
  have member : (Record.report l m).get "Message" = .ok m := rfl
  obtain ⟨h', run, grown, set, kept⟩ := run_setText drafts.data member drafts.message text
  refine ⟨h', run, extends_of_frame drafts.ext grown new kept, drafts.new,
    drafts.apart, ?_, ?_, set⟩
  · rw [kept _ drafts.made away, drafts.shape]
  · rw [kept _ (made_text drafts.location) apart, drafts.location]

end Drafts

/-- **A report can always be made.** It is new, and nothing that was there changes. -/
theorem run_errorReport (location message : String) (h : Heap) :
    ∃ report h', errorReport location message h = .ok report h' ∧ h.Extends h' ∧ ¬ h.Made report ∧
      h'.Reports report location message := by
  obtain ⟨report, l, m, h₁, declared, blank⟩ := run_declare_errorType h
  obtain ⟨h₂, first, located⟩ := blank.run_setLocation location
  obtain ⟨h₃, second, told⟩ := located.run_setMessage message
  refine ⟨report, h₃, ?_, told.ext, told.new.1, l, m, told.shape, told.location, told.message⟩
  apply (HeapM.bind_of_ok declared _).trans
  apply (HeapM.bind_of_ok first _).trans
  exact HeapM.bind_of_ok second _

end HostM

/-! ## Replies -/

/-- How a handler replies that is asked. -/
inductive Reply where
  | answered (accepts : Bool)
  | unreadable (f : Fault)
  | raised (e : Halt)
  | uncallable (e : Halt)

/-- What a reply ends with that is no answer. -/
def Reply.halt? : Reply → Option Halt
  | .answered _ => none
  | .unreadable f => some (.fault f)
  | .raised e => some e
  | .uncallable e => some e

/-- What a handler is called with: the report if it takes one argument. -/
def Heap.argumentsFor (h : Heap) (report handler : Handle) : List Handle :=
  if (h.data handler).arities.contains 1 then [report] else []

/-- A handler is called with some arguments, replies, and leaves a state. -/
inductive Asked (run : Runner) (handler : Handle) (args : List Handle) (s : Host) :
    Reply → Host → Prop where
  | answered {w : Handle} {t : Host} {accepts : Bool}
    (returns : callValue run handler args s = .ok w t)
    (reads : (t.heap.data w).asBoolean = .ok accepts) :
      Asked run handler args s (.answered accepts) t
  | unreadable {w : Handle} {t : Host} {f : Fault}
    (returns : callValue run handler args s = .ok w t)
    (reads : (t.heap.data w).asBoolean = .error f) : Asked run handler args s (.unreadable f) t
  /-- The body of its overload is run in the frame of the call, and fails. -/
  | raised {c : Callable} {vs : List Handle} {u x : Host} {e : Halt}
    (selected : onHeap (HeapM.callable handler args.length) s = .ok c s)
    (free : s.interrupted = false)
    (bound : bindParams c args s = .ok vs u) (fails : run.body c.body u.entered = .error e x) :
    Asked run handler args s (.raised e) (x.left.unwind s.env.stack.depth)
  /-- The call fails whatever would run the body. -/
  | uncallable {t : Host} {e : Halt} (fails : ∀ r : Runner,
    callValue r handler args s = .error e t) : Asked run handler args s (.uncallable e) t

/-- Handlers asked one after the other with their replies, each in the state that the one before it
has left. -/
inductive Chain (run : Runner) (report : Handle) : List (Handle × Reply) → Host → Host → Prop where
  | done (s : Host) : Chain run report [] s s
  | ask {handler : Handle} {reply : Reply} {rest : List (Handle × Reply)} {s u t : Host}
    (asked : Asked run handler (s.heap.argumentsFor report handler) s reply u)
    (later : Chain run report rest u t) :
    Chain run report ((handler, reply) :: rest) s t

/-- What it comes to when handlers are asked: all of them have accepted, or the last that was asked
has declined, or has not answered. -/
inductive Concludes (handlers : List Handle) (asked : List (Handle × Reply)) (t : Host) :
    EStateM.Result Halt Host Bool → Prop where
  | accepted (all : asked = handlers.map fun v => (v, .answered true)) :
    Concludes handlers asked t (.ok true t)
  | declined {v : Handle} (last : asked.getLast? = some (v, .answered false)) :
    Concludes handlers asked t (.ok false t)
  | halted {v : Handle} {reply : Reply} {e : Halt} (last : asked.getLast? = some (v, reply))
    (halts : reply.halt? = some e) : Concludes handlers asked t (.error e t)

namespace Concludes

variable {handlers : List Handle} {asked : List (Handle × Reply)} {t : Host}
  {r : EStateM.Result Halt Host Bool}

/-- One more handler that has accepted before. -/
theorem cons (concludes : Concludes handlers asked t r) (v : Handle) :
    Concludes (v :: handlers) ((v, .answered true) :: asked) t r := by
  cases concludes with
  | accepted all => exact .accepted (by rw [all, List.map_cons])
  | declined last => exact .declined (by rw [List.getLast?_cons, last, Option.getD_some])
  | halted last halts => exact .halted (by rw [List.getLast?_cons, last, Option.getD_some]) halts

/-- The replies tell what it comes to. -/
theorem verdict (concludes : Concludes handlers asked t r) :
    (r = .ok true t ↔ asked = handlers.map fun v => (v, .answered true)) ∧
    (r = .ok false t ↔ ∃ v, asked.getLast? = some (v, .answered false)) ∧
    ∀ e, r = .error e t ↔ ∃ v reply, asked.getLast? = some (v, reply) ∧ reply.halt? = some e := by
  have accepted (all : asked = handlers.map fun v => (v, .answered true)) {v : Handle}
      {reply : Reply} (last : asked.getLast? = some (v, reply)) : reply = .answered true := by
    have mem := List.mem_of_getLast? last
    rw [all] at mem
    obtain ⟨w, -, same⟩ := List.mem_map.mp mem
    exact (Prod.mk.inj same).2.symm
  cases concludes with
  | accepted all =>
    refine ⟨⟨fun _ => all, fun _ => rfl⟩, ⟨nofun, ?_⟩, fun e => ⟨nofun, ?_⟩⟩
    · rintro ⟨v, last⟩
      cases accepted all last
    · rintro ⟨v, reply, last, halts⟩
      rw [accepted all last] at halts
      cases halts
  | declined last =>
    refine ⟨⟨nofun, fun all => by cases accepted all last⟩,
      ⟨fun _ => ⟨_, last⟩, fun _ => rfl⟩, fun e => ?_⟩
    refine ⟨nofun, ?_⟩
    rintro ⟨v, reply, again, halts⟩
    rw [last] at again
    cases again
    cases halts
  | halted last halts =>
    refine ⟨⟨nofun, fun all => ?_⟩, ⟨nofun, ?_⟩, fun e => ⟨?_, ?_⟩⟩
    · rw [accepted all last] at halts
      cases halts
    · rintro ⟨v, again⟩
      rw [last] at again
      cases again
      cases halts
    · rintro ⟨⟩
      exact ⟨_, _, last, halts⟩
    · rintro ⟨v, reply, again, also⟩
      rw [last] at again
      cases again
      rw [halts] at also
      cases also
      rfl

/-- What is asked of handlers ends in the state they have left. -/
theorem ends (concludes : Concludes handlers asked t r) :
    r = .ok true t ∨ r = .ok false t ∨ ∃ e, r = .error e t := by
  cases concludes with
  | accepted => exact .inl rfl
  | declined => exact .inr (.inl rfl)
  | halted => exact .inr (.inr ⟨_, rfl⟩)

/-- Somebody is asked if there is somebody to ask. -/
theorem asked_ne_nil (concludes : Concludes handlers asked t r) (some : handlers ≠ []) :
    asked ≠ [] := by
  rintro rfl
  cases concludes with
  | accepted all => exact some (List.map_eq_nil_iff.mp all.symm)
  | declined last => cases last
  | halted last => cases last

end Concludes

namespace HostM

variable {run : Runner} {handler : Handle} {args : List Handle} {s t : Host} {e : Halt}

/-- **A call that fails** fails in its body, or whatever its body would do. -/
theorem asked_of_error (fails : callValue run handler args s = .error e t) :
    ∃ reply, Asked run handler args s reply t ∧ reply.halt? = some e := by
  have uncallable (all : ∀ r : Runner, callValue r handler args s = callValue run handler args s) :
      ∃ reply, Asked run handler args s reply t ∧ reply.halt? = some e :=
    ⟨.uncallable e, .uncallable fun r => (all r).trans fails, rfl⟩
  cases selected : onHeap (HeapM.callable handler args.length) s with
  | error e' u =>
    apply uncallable
    intro r
    simp only [callValue, Bind.bind, EStateM.bind, selected]
  | ok c u =>
    obtain rfl : u = s := by
      rw [HeapM.callable, onHeap_ask, of.eq_def] at selected
      split at selected <;> cases selected
      rfl
    have executes (r : Runner) : callValue r handler args u = execute r c args u := by
      simp only [callValue, Bind.bind, EStateM.bind, selected]
    cases free : u.interrupted with
    | true =>
      apply uncallable
      intro r
      simp only [executes, execute, Bind.bind, EStateM.bind, look, free, if_true]
      rfl
    | false =>
      cases bound : bindParams c args u with
      | error e' v =>
        apply uncallable
        intro r
        simp only [executes, execute, Bind.bind, EStateM.bind, look, free, bound,
          Bool.false_eq_true, if_false]
      | ok vs v =>
        rw [executes, run_execute free bound, always] at fails
        cases ended : run.body c.body v.entered with
        | ok w x =>
          rw [ended] at fails
          cases fails
        | error e' x =>
          rw [ended] at fails
          cases fails
          exact ⟨.raised e, .raised selected free bound ended, rfl⟩

theorem offer_cons (run : Runner) (report handler : Handle) (rest : List Handle) (s : Host) :
    offer run report (handler :: rest) s =
      (callValue run handler (s.heap.argumentsFor report handler) >>= fun answer =>
        onHeap (HeapM.asBoolean answer) >>= fun accepts => if accepts then offer run report rest
          else pure false) s :=
  rfl

/-- **The chain.** Handlers are asked in order as long as they accept. -/
theorem offer_chain (run : Runner) (report : Handle) (handlers : List Handle) (s : Host) :
    ∃ asked t, Chain run report asked s t ∧ asked.map (·.1) <+: handlers ∧
      (∀ p ∈ asked.dropLast, p.2 = .answered true) ∧
      Concludes handlers asked t (offer run report handlers s) := by
  induction handlers generalizing s with
  | nil => exact ⟨[], s, .done s, List.prefix_refl _, by simp, .accepted rfl⟩
  | cons handler rest ih =>
    -- a handler that does not accept is the only one that is asked
    have alone {reply : Reply} {t : Host}
        (asked : Asked run handler (s.heap.argumentsFor report handler) s reply t)
        (ends : Concludes (handler :: rest) [(handler, reply)] t
          (offer run report (handler :: rest) s)) :
        ∃ asked t, Chain run report asked s t ∧ asked.map (·.1) <+: handler :: rest ∧
          (∀ p ∈ asked.dropLast, p.2 = .answered true) ∧
          Concludes (handler :: rest) asked t (offer run report (handler :: rest) s) :=
      ⟨[(handler, reply)], t, .ask asked (.done t), by simp, by simp, ends⟩
    cases returns : callValue run handler (s.heap.argumentsFor report handler) s with
    | error e t =>
      obtain ⟨reply, asked, halts⟩ := asked_of_error returns
      apply alone asked
      simp only [offer_cons, Bind.bind, EStateM.bind, returns]
      exact .halted rfl halts
    | ok w u =>
      cases reads : (u.heap.data w).asBoolean with
      | error f =>
        apply alone (.unreadable returns reads)
        simp only [offer_cons, Bind.bind, EStateM.bind, returns, HeapM.asBoolean,
          onHeap_ask, reads, of]
        exact .halted rfl rfl
      | ok accepts =>
        cases accepts with
        | false =>
          apply alone (.answered returns reads)
          simp only [offer_cons, Bind.bind, EStateM.bind, returns, HeapM.asBoolean,
            onHeap_ask, reads, of]
          exact .declined rfl
        | true =>
          obtain ⟨asked, t, chain, first, earlier, ends⟩ := ih u
          have goes : offer run report (handler :: rest) s = offer run report rest u := by
            simp only [offer_cons, Bind.bind, EStateM.bind, returns, HeapM.asBoolean, onHeap_ask,
              reads, of, if_true]
          rw [goes]
          refine ⟨_, t, .ask (.answered returns reads) chain, (List.prefix_cons_inj _).mpr first,
            ?_, ends.cons handler⟩
          intro p mem
          cases asked with
          | nil => cases mem
          | cons q asked =>
            rcases List.mem_cons.mp mem with rfl | mem
            · rfl
            · exact earlier p mem

end HostM

/-! ## What is installed -/

namespace Host

/-- A handler comes first among those for its class; other classes have the handlers they had. -/
theorem handlersFor_cons (s : Host) (kind : FaultKind) (v : Handle) (k : FaultKind) :
    { s with handlers := (kind, v) :: s.handlers }.handlersFor k =
      if k = kind then v :: s.handlersFor k else s.handlersFor k := by
  by_cases same : k = kind
  · subst same
    simp [handlersFor]
  · simp [handlersFor, same, Ne.symm same]

/-- The newest handler for a class goes; other classes have the handlers they had. -/
theorem handlersFor_eraseP (s : Host) (kind k : FaultKind) :
    { s with handlers := s.handlers.eraseP (·.1 = kind) }.handlersFor k =
      if k = kind then (s.handlersFor k).tail else s.handlersFor k := by
  simp only [handlersFor]
  induction s.handlers with
  | nil => simp
  | cons p rest ih =>
    by_cases newest : p.1 = kind
    · by_cases same : k = kind
      · simp [newest, same]
      · simp [newest, same, Ne.symm same]
    · by_cases same : p.1 = k
      · have other : k ≠ kind := same ▸ newest
        simpa [List.eraseP_cons, newest, same, other] using ih
      · simpa [List.eraseP_cons, newest, same] using ih

end Host

/-! ## Faults that are offered -/

/-- A fault has been offered to the handlers for its class: who was asked, what they replied, in
which state that left the host, and what came of it. -/
structure Consulted (run : Runner) (kind : FaultKind) (location message : String) (s : Host)
    (asked : List (Handle × Reply)) (t : Host) (r : EStateM.Result Halt Host Bool) : Prop where
  /-- Those asked are the first of those installed at the start, in their order. -/
  installed : asked.map (·.1) <+: s.handlersFor kind
  /-- All but the last have accepted. -/
  earlier : ∀ p ∈ asked.dropLast, p.2 = .answered true
  untouched : s.handlersFor kind = [] → t = s
  /-- One new report goes to all of them. -/
  chain : s.handlersFor kind ≠ [] → asked ≠ [] ∧
    ∃ report h, errorReport location message s.heap = .ok report h ∧ s.heap.Extends h ∧
    ¬ s.heap.Made report ∧ h.Reports report location message ∧
    Chain run report asked { s with heap := h } t
  accepted : r = .ok true t ↔ s.handlersFor kind ≠ [] ∧ asked = (s.handlersFor kind).map fun v =>
    (v, .answered true)
  declined : r = .ok false t ↔ s.handlersFor kind = [] ∨
    ∃ v, asked.getLast? = some (v, .answered false)
  halted : ∀ e, r = .error e t ↔ ∃ v reply, asked.getLast? = some (v, reply) ∧ reply.halt? = some e
  /-- There is no other way to end. -/
  ends : r = .ok true t ∨ r = .ok false t ∨ ∃ e, r = .error e t

/-- An answer comes in the state that the last handler has left. -/
theorem Consulted.state_eq {run : Runner} {kind : FaultKind} {location message : String}
    {s t u : Host} {asked : List (Handle × Reply)} {r : EStateM.Result Halt Host Bool}
    {accepts : Bool} (consulted : Consulted run kind location message s asked t r)
    (answers : r = .ok accepts u) : u = t := by
  rcases consulted.ends with ends | ends | ⟨e, ends⟩
  all_goals
    rw [answers] at ends
    cases ends
  · rfl
  · rfl

namespace HostM

/-- An installed handler is the newest one. -/
theorem eq_of_pushHandler {s t : Host} {kind : FaultKind} {v : Handle}
    (pushes : pushHandler kind v s = .ok () t) :
    t = { s with handlers := (kind, v) :: s.handlers } := by
  unfold pushHandler at pushes
  by_cases refused : kind = .null ∨ kind = .ok ∨ kind = .terminate
  · rw [if_pos refused] at pushes
    cases pushes
  · have looked : onHeap (HeapM.kindOf v) s = .ok (s.heap.kind v) s := rfl
    rw [if_neg refused] at pushes
    simp only [Bind.bind, EStateM.bind, looked] at pushes
    by_cases called : s.heap.kind v = .executable
    · simp only [called, ne_eq, not_true_eq_false, if_false] at pushes
      cases pushes
      rfl
    · simp only [ne_eq, called, not_false_eq_true, if_true] at pushes
      cases pushes

theorem invokeHandlers_of_nil (run : Runner) {kind : FaultKind} (location message : String)
    {s : Host} (none : s.handlersFor kind = []) :
    invokeHandlers run kind location message s = .ok false s := by
  simp only [invokeHandlers, Bind.bind, EStateM.bind, look, none]
  rfl

theorem invokeHandlers_of_ne_nil (run : Runner) {kind : FaultKind} {location message : String}
    {s : Host} {report : Handle} {h : Heap} (some : s.handlersFor kind ≠ [])
    (made : errorReport location message s.heap = .ok report h) :
    invokeHandlers run kind location message s = offer run report (s.handlersFor kind)
      { s with heap := h } := by
  obtain ⟨v, vs, stored⟩ := List.exists_cons_of_ne_nil some
  simp only [invokeHandlers, Bind.bind, EStateM.bind, look, stored, onHeap, made]

/-- **Offering a fault.** If there are handlers for its class then a report is made and they are
asked in a chain. -/
theorem consulted (run : Runner) (s : Host) (kind : FaultKind) (location message : String) :
    ∃ asked t, Consulted run kind location message s asked t
      (invokeHandlers run kind location message s) := by
  by_cases none : s.handlersFor kind = []
  · rw [invokeHandlers_of_nil run location message none]
    exact ⟨[], s, by simp, by simp, fun _ => rfl, absurd none, by simp [none], by simp [none],
      by simp, by simp⟩
  · obtain ⟨report, h, made, ext, new, reports⟩ := run_errorReport location message s.heap
    obtain ⟨asked, t, chain, first, earlier, concludes⟩ :=
      offer_chain run report (s.handlersFor kind) { s with heap := h }
    obtain ⟨accepted, declined, halted⟩ := concludes.verdict
    rw [← invokeHandlers_of_ne_nil run none made] at concludes accepted declined halted
    have asks := concludes.asked_ne_nil none
    exact ⟨asked, t, first, earlier, fun empty => absurd empty none,
      fun _ => ⟨asks, report, h, made, ext, new, reports, chain⟩,
      by simpa [none] using accepted, by simpa [none] using declined, halted, concludes.ends⟩

end HostM

namespace Host

open HostM

/-- **Who is asked about a fault, and what comes of it.** Whatever runs the bodies of the handlers,
those asked are the first of those that were installed for the class when the fault was offered, and
all of them that take an argument get one new report. All accept, or the last has declined, or it
has not answered; so the fault is accepted, or declined, or there is another failure. A guard offers
a fault of its statement in the frames it was entered with, or in fewer if the statement has dropped
some, and yields Null, that fault or the other failure. The newest handler for a class is the first
of those installed. -/
theorem handlers_consulted (run : Runner) :
    (∀ (s : Host) (kind : FaultKind) (location message : String), ∃ asked t,
      Consulted run kind location message s asked t (invokeHandlers run kind location message s)) ∧
    (∀ (s : Host) (location : String) (statement : HostM Handle) (f : Fault) (u : Host),
      statement s = .error (.fault f) u → f.isCatchable = true →
      let back := u.unwind s.env.stack.depth
      back.env.stack.depth = min u.env.stack.depth s.env.stack.depth ∧
      (∀ t, invokeHandlers run f.kind location f.message back = .ok true t →
        HostM.guard run location statement s =
          .ok ⟨t.heap.size⟩ { t with heap := t.heap.push ⟨.leaf .null, true⟩ }) ∧
      (∀ t, invokeHandlers run f.kind location f.message back = .ok false t →
        HostM.guard run location statement s = .error (.fault f) t) ∧
      ∀ e t, invokeHandlers run f.kind location f.message back = .error e t →
        HostM.guard run location statement s = .error e t) ∧
    (∀ (s t : Host) (kind : FaultKind) (v : Handle), pushHandler kind v s = .ok () t →
      ∀ k, t.handlersFor k = if k = kind then v :: s.handlersFor k else s.handlersFor k) ∧
    ∀ (s : Host) (kind : FaultKind),
      ∃ t, popHandler kind s = .ok (!(s.handlersFor kind).isEmpty) t ∧
      ∀ k, t.handlersFor k = if k = kind then (s.handlersFor k).tail else s.handlersFor k := by
  refine ⟨consulted run, ?_, ?_, ?_⟩
  · intro s location statement f u fails catchable
    dsimp only
    refine ⟨Stack.depth_unwind _ _, ?_, ?_, ?_⟩
    · intro t answer
      simp only [HostM.guard, fails, catchable, if_true, answer]
      rfl
    · intro t answer
      simp only [HostM.guard, fails, catchable, if_true, answer]
    · intro e t answer
      simp only [HostM.guard, fails, catchable, if_true, answer]
  · intro s t kind v pushes
    rw [eq_of_pushHandler pushes]
    exact s.handlersFor_cons kind v
  · intro s kind
    exact ⟨_, rfl, s.handlersFor_eraseP kind⟩

/-- A host with two handlers for a class, of which the newer removes itself and accepts, and the
older declines. -/
def yielding : Host := Session.after (.bare .default)
  [.bind (.handler .rangeError)
    (.function "older" [⟨"report", .reference⟩] [.literal (.boolean false)]),
    .bind (.handler .rangeError) (.function "newer" []
      [.sequence [.command (.handlersPop .rangeError), .literal (.boolean true)]])]

/-- Both are asked, although the newer is gone by then, and a guard whose statement leaves a frame
behind ends in its fault. -/
theorem handlers_consulted_removed :
    let statement := Expr.evalBody (.free 9) [.sequence [.command (.pushFrame .host),
      .raise (.raised .rangeError "")]]
    let back := (endState statement yielding).unwind yielding.env.stack.depth
    back.env.stack.depth = yielding.env.stack.depth ∧
      back.handlersFor .rangeError = [⟨1⟩, ⟨0⟩] ∧ ∃ asked t, Consulted (.free 9) .rangeError "here"
        "" back asked t (invokeHandlers (.free 9) .rangeError "here" "" back) ∧
      (∃ v, asked.getLast? = some (v, .answered false)) ∧ t.handlersFor .rangeError = [⟨0⟩] ∧
      HostM.guard (.free 9) "here" statement yielding =
        .error (.fault (.raised .rangeError "")) t := by
  intro statement back
  obtain ⟨consults, guards, -, -⟩ := handlers_consulted (.free 9)
  obtain ⟨asked, t, consulted⟩ := consults back .rangeError "here" ""
  have fails : statement yielding = .error (.fault (.raised .rangeError ""))
      (endState statement yielding) := rfl
  obtain ⟨depth, -, whole, -⟩ := guards yielding "here" statement _ _ fails (by decide)
  have stored : back.handlersFor .rangeError = [⟨1⟩, ⟨0⟩] := by decide +kernel
  have declines : invokeHandlers (.free 9) .rangeError "here" "" back =
      .ok false (endState (invokeHandlers (.free 9) .rangeError "here" "") back) :=
        run_of_result? (by decide +kernel)
  have left := consulted.state_eq declines
  rw [left] at declines
  obtain none | declined := consulted.declined.mp declines
  · rw [stored] at none
    cases none
  refine ⟨depth.trans (by decide +kernel), stored, asked, t, consulted, declined, ?_,
    whole t declines⟩
  rw [← left]
  decide +kernel

end Host

end ScriptHost
