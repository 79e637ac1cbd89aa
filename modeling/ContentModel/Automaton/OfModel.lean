import ContentModel.Automaton.OfFragment
import ContentModel.Fragment.OfModel

/-!
# Automata of content models

A content model that has no fragment is compiled like one that reads nothing.
-/

namespace ContentModel.Automaton.Store

/-- Adds the automaton of a content model to the store. -/
def compileModel (store : Store) (model : Model) :
    Except Fault (Except StateLimitExceeded Nat × Store) := do
  match ← model.fragment {} with
  | (some fragment, graph) => store.compile graph fragment
  | (none, graph) =>
    let (fragment, graph) := graph.nothing
    store.compile graph fragment

end ContentModel.Automaton.Store
