/-
# Programs continue after transport

A state that was sent away and comes back is the same state for every program.
It may have lost shadowed frames and it may share less, and a mutable
environment inside comes back persistent; no program without `def-rec` can tell.

What a program can see of a value is its visible view, and transport keeps the
view.  So the two runs stay similar from step to step, and what they end with
is compared from outside: by envelopes, and by what an error says.
-/

import CapLisp.Proofs.Isolation
import CapLisp.Proofs.RoundTrip

namespace CapLisp

/-- Tells that a value can be sent away and continue as the same program: it is
well formed, as every value that is built is, no atom in it is `def-rec` and no
state in it has a mutable environment. -/
structure Value.Continuable (v : Value) : Prop where
  wellFormed : v.WellFormed
  without : v.Without "def-rec"
  states : v.Everywhere fun w => ∀ s, w = .state s → s.env.isImmutable = true

/-- Two outcomes that look the same from outside: values with one envelope, or
errors with one kind, label and message. -/
inductive SameOutcome : Except Error Value → Except Error Value → Prop
  | ok {v v' : Value} (encode : v.encode = v'.encode) : SameOutcome (.ok v) (.ok v')
  | error {e e' : Error} (kind : e.kind = e'.kind) (label : e.label = e'.label)
    (message : e.message = e'.message) : SameOutcome (.error e) (.error e')

/-- Two runs that end the same from outside, in states with one envelope. -/
structure SameEnd (r r' : Except Error Value × Bindings) : Prop where
  outcome : SameOutcome r.1 r'.1
  state : (Value.state r.2.intoState).encode = (Value.state r'.2.intoState).encode

/-! ### Similar runs look the same from outside -/

/-- Similar values have the same envelope. -/
theorem Similar.encode_eq {v w : Value} (h : Similar .visible v w) : v.encode = w.encode := by
  rw [← Value.encode_view h.left.regular, h.view, Value.encode_view h.right.regular]

/-- Similar errors are of one kind, with the same label and message. -/
theorem SimilarError.same {d : Detail} {e e' : Error} (h : SimilarError d e e') :
    e.kind = e'.kind ∧ e.label = e'.label ∧ e.message = e'.message := by
  refine ⟨?_, ?_, ?_⟩
  · rw [← Error.kind_view (d := d), h.view, Error.kind_view]
  · rw [← Error.label_view (d := d), h.view, Error.label_view]
  · rw [← Error.message_view fun v hv => (h.left v hv).regular, h.view,
      Error.message_view fun v hv => (h.right v hv).regular]

/-- Similar ends of an immutable environment look the same from outside. -/
theorem SimilarEnd.same {b : Bindings} {r r' : Except Error Value × Bindings}
    (h : SimilarEnd .visible (Similar .visible) b r r') (hb : b.env.isImmutable = true) :
    SameEnd r r' := by
  obtain ⟨variant, bindings, outcome⟩ := h
  obtain ⟨o, c⟩ := r
  obtain ⟨o', c'⟩ := r'
  have hstate : Similar .visible (.state c.intoState) (.state c'.intoState) :=
    .state bindings.env bindings.refs bindings.variant fun _ => variant.trans hb
  refine ⟨?_, hstate.encode_eq⟩
  cases outcome with
  | ok hv => exact .ok hv.encode_eq
  | error he =>
    obtain ⟨hkind, hlabel, hmessage⟩ := he.same
    exact .error hkind hlabel hmessage

/-! ### What comes back is similar -/

/-- A value that can be sent away shows no more than what is visible of it. -/
theorem Value.Continuable.plain {v : Value} (h : v.Continuable) : v.Plain .visible := by
  refine Everywhere.mono (fun w hw => ?_) (h.wellFormed.and (h.without.and h.states))
  obtain ⟨hwell, hatom, hstate⟩ := hw
  cases w with
  | atom name => exact fun he => hatom (congrArg Value.atom he)
  | env e => exact fun _ => hwell
  | state s => exact fun _ => hstate s rfl
  | _ => trivial

/-- **What transport brings back is similar** to what was sent. -/
theorem Value.Restores.similar {v v' : Value} (h : Restores v v') (hv : v.Continuable) :
    Similar .visible v v' := by
  refine ⟨h.view.symm, hv.plain, ?_⟩
  refine Everywhere.mono (fun w hw => ?_) (h.persistent.and (h.atoms _ hv.without))
  obtain ⟨hpersistent, hatom⟩ := hw
  cases w with
  | atom name => exact fun he => hatom (congrArg Value.atom he)
  | env e => exact fun _ => Env.distinct_of_isImmutable hpersistent
  | state s => exact fun _ => hpersistent
  | _ => trivial

/-- **Programs continue after transport.**  Under any part of the shipped
catalog, for every state and expression that are continuable: decoding the
envelope of the state succeeds with a state, and evaluating the expression on
either ends the same from outside, at every depth, also when the expression
itself has been sent and brought back. -/
theorem decode_encode_continues {table : Table} (htable : table ⊆ Table.shipped)
    {s : State Value} (hs : (Value.state s).Continuable) {expr : Value} (hexpr : expr.Continuable)
    (fresh fresh' : Nat) :
    ∃ s' next, (Value.state s).encode.decode fresh = .ok (.state s', next) ∧
    ∃ expr' next', expr.encode.decode fresh' = .ok (expr', next') ∧
    ∀ (room : Nat) (held held' : List Value) (serial serial' : Nat),
      SameEnd ((Eval.eval room ⟨table, held⟩ expr).run (.ofState s serial))
        ((Eval.eval room ⟨table, held'⟩ expr).run (.ofState s' serial')) ∧
      SameEnd ((Eval.eval room ⟨table, held⟩ expr).run (.ofState s serial))
        ((Eval.eval room ⟨table, held'⟩ expr').run (.ofState s' serial')) := by
  obtain ⟨v', next, hrun, hrestores⟩ := Envelope.restorable hs.wellFormed fresh
  obtain ⟨expr', next', hrun', hrestores'⟩ := Envelope.restorable hexpr.wellFormed fresh'
  have himmutable : s.env.isImmutable = true := hs.states.here s rfl
  have hsimilar := hrestores'.similar hexpr
  cases (hrestores.similar hs).matched with
  | @state _ s' henv hrefs hvariant _ =>
    refine ⟨s', next, hrun, expr', next', hrun', ?_⟩
    intro room held held' serial serial'
    have hbindings : SimilarBindings .visible (.ofState s serial) (.ofState s' serial') :=
      ⟨hvariant, henv, hrefs⟩
    have heval : AgreeEval .visible table (Eval.eval room) :=
      agreeEval_eval (blindHosts_of_subset htable) room
    constructor
    · exact (heval held held' _ _ (.refl hexpr.plain) _ _ hbindings).same himmutable
    · exact (heval held held' _ _ hsimilar _ _ hbindings).same himmutable

/-- A closure that has captured a shadowed frame is sent away within its state,
comes back and is called. -/
theorem decode_encode_continues_shadowed :
    let f : Value := .lambda ⟨0, ["x"], [.list [.atom "+", .atom "x", .atom "y"]],
      [("y", .number 2), ("y", .number 1)]⟩
    let s : State Value := ⟨.persistent [("f", f), ("f", .null)], [.number 7]⟩
    let expr : Value := .list [.atom "f", .number 40]
    (Value.state s).Continuable ∧ expr.Continuable ∧
    ∃ s' next, (Value.state s).encode.decode 1 = .ok (.state s', next) ∧
      SameEnd ((Eval.eval 8 ⟨Table.shipped, []⟩ expr).run (.ofState s 1))
        ((Eval.eval 8 ⟨Table.shipped, []⟩ expr).run (.ofState s' next)) := by
  intro f s expr
  have hs : (Value.state s).Continuable := by
    constructor
    · simp [s, f, Value.WellFormed, Value.isWellFormed, Value.EverywhereInClosure, Env.Distinct,
        Env.values]
    · simp [s, f, Value.Without, Value.EverywhereInClosure, Env.values]
    · simp [s, f, Value.EverywhereInClosure, Env.values, Env.isImmutable]
  have hexpr : expr.Continuable := by
    constructor
    · simp [expr, Value.WellFormed, Value.isWellFormed]
    · simp [expr, Value.Without]
    · simp [expr]
  obtain ⟨s', next, hrun, _, _, _, hends⟩ :=
    decode_encode_continues (List.Subset.refl Table.shipped) hs hexpr 1 0
  exact ⟨hs, hexpr, s', next, hrun, (hends 8 [] [] 1 next).1⟩

end CapLisp
