import LoxLang.Proofs.Session.Timeline
/-!
# The scopes of a session

A session keeps its scopes over all its runs, those that end with an error among them. Whatever is
run, the commands that are written down between any two moments lead from the scopes of the one to
those of the other, and so everything holds that commands keep: parents, bound names, and where names
are resolved to. A name is resolved to another scope than before only if a definition of it in that
scope is one of these commands.
-/

namespace LoxLang

open Watch

/-- Between any two moments of a session, scopes keep their parents and their names, and names are resolved only more
and more inward. The moments are those of the watched runs, which are the runs, and those at rest, with the session
itself at rest last. Wherever the timeline is cut, what was asked of the scopes in between leads from the store of the
moment `m` to that of the last moment before the second cut. -/
theorem resolution_moves_inward (level : Nat) (canTrace : Bool) (clock : Nat → Number) {timeline : List Moment}
    {s : Session} (hs : (Session.start level canTrace clock).Leads timeline s) :
    (∀ room source, (s.state.watch room (parseProgram source).result).1 =
      s.state.run room (parseProgram source).result) ∧
    timeline.getLast? = some s.resting ∧
    ∀ before m between after, timeline = before ++ m :: (between ++ after) →
      (lastState m.state between).store = Store.Command.performAll m.state.store (commandsOf between) ∧
      m.state.store.Inward (commandsOf between) (lastState m.state between).store := by
  have hleads := hs.leadsIdle (idle_start level canTrace clock)
  refine ⟨hleads.idle.watch_run, ?_, fun before m between after hcut => ?_⟩
  · obtain ⟨earlier, hlast⟩ := hleads.last
    rw [hlast, List.getLast?_concat]
  have hstate : lastState (Session.start level canTrace clock).state (before ++ [m]) = m.state := lastState_append _ _ _
  have hfollows := hleads.follows
  rw [hcut, List.append_cons] at hfollows
  obtain ⟨hupto, hrest⟩ := followsFrom_append.mp hfollows
  rw [hstate] at hrest
  obtain ⟨hbetween, -⟩ := followsFrom_append.mp hrest
  have hsettled : m.state.Settled := by
    obtain ⟨hvalid, hstore⟩ := hupto.performs
    exact (State.settled_initial level canTrace clock).performAll hvalid (hstate ▸ hstore)
  obtain ⟨hvalid, hstore⟩ := hbetween.performs
  refine ⟨hstore, ?_⟩
  rw [hstore]
  exact Store.Command.inward_performAll hvalid hsettled.wellScoped

namespace Shadowing

def clockName : Token := ⟨.identifier, .str "clock", .null, 1⟩

/-- Inside of a block, a function that reads the clock is called before and after the block defines a name like it. -/
def source : String := "\x7b fun f() \x7b clock; \x7d f(); var clock; f(); \x7d"

def program : List Node :=
  [.block
    [.function (.token EndlessCalls.name) [] [.expression (.reference (.token clockName))],
     .callOf EndlessCalls.name EndlessCalls.paren,
     .var (.token clockName) .null,
     .callOf EndlessCalls.name EndlessCalls.paren]]

theorem parseProgram_source : parseProgram source = ⟨program, []⟩ := by
  cbv

def room : Room := ⟨12, callLimit⟩

def start : Session := Session.start 0 true fun _ => .zero

def moments : List Moment := (start.state.watch room program).2

theorem moments_run : Request.moments room start (.run source) = moments := by
  rw [Request.moments, parseProgram_source, if_neg (by decide)]
  rfl

end Shadowing

/-- The scope of the first call finds the name at the global scope while the call is in progress, and at the end at the
scope of the block, where it was defined in between. -/
theorem resolution_moves_inward_shadowing : ∃ timeline s,
    Act.run Shadowing.room Shadowing.source Shadowing.start = .ok () s ∧ Shadowing.start.Leads timeline s ∧
    ∃ before m between after, timeline = before ++ m :: (between ++ after) ∧
      m.state.calls.length = 1 ∧ m.state.store.resolve? 2 "clock" = some 0 ∧
      (lastState m.state between).store.resolve? 2 "clock" = some 1 ∧
      ∃ value, .define 1 "clock" value ∈ commandsOf between := by
  have hends : (Act.answered? (Act.execute Shadowing.room Shadowing.program Shadowing.start)).isSome = true := by
    decide +kernel
  have hmoment : (Shadowing.moments[24]?.map fun m => (m.state.calls.length, m.state.store.resolve? 2 "clock")) =
      some (1, some 0) := by decide +kernel
  have hlast : (lastState Shadowing.start.state Shadowing.moments).store.resolve? 2 "clock" = some 1 := by decide +kernel
  obtain ⟨s, hanswered⟩ := Option.isSome_iff_exists.mp hends
  have hact : Act.run Shadowing.room Shadowing.source Shadowing.start = .ok () s := by
    rw [Act.run_clean _ (by rw [Shadowing.parseProgram_source]) rfl, Shadowing.parseProgram_source,
      Act.answered?_eq_some_iff.mp hanswered]
  have hleads := Session.Leads.returned Shadowing.room (.run Shadowing.source) .refl hact
  rw [Shadowing.moments_run] at hleads
  generalize Shadowing.moments = moments at hmoment hlast hleads
  obtain ⟨m, hm, hpair⟩ := Option.map_eq_some_iff.mp hmoment
  obtain ⟨hcalls, hresolve⟩ := Prod.mk.inj hpair
  obtain ⟨before, between, rfl⟩ := List.append_of_mem (List.mem_of_getElem? hm)
  rw [lastState_append] at hlast
  obtain ⟨-, -, hmoves⟩ := resolution_moves_inward 0 true (fun _ => .zero) hleads
  have htimeline : [Shadowing.start.resting] ++ (before ++ m :: between ++ [s.resting]) =
      (Shadowing.start.resting :: before) ++ m :: (between ++ [s.resting]) := by simp
  obtain ⟨-, hinward⟩ := hmoves _ _ _ _ htimeline
  refine ⟨_, s, hact, hleads, _, m, _, _, htimeline, hcalls, hresolve, hlast, ?_⟩
  -- The name is resolved to another scope than before, so it was defined there.
  obtain ⟨t', -, -, hlater, -, -, hdefined⟩ := hinward.resolves 2 "clock" 0 hresolve
  cases Option.some.inj (hlater.symm.trans hlast)
  exact hdefined.resolve_left Nat.one_ne_zero

end LoxLang
