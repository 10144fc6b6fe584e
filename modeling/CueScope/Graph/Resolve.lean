import CueScope.Graph.Lookup

/-!
# Resolving references

A reference is resolved at most once: what it stands for is written into the graph and read from
there ever after. One that could not be resolved is tried again the next time.
-/

namespace CueScope

/-- The graph whose references are being resolved. -/
structure Resolver where
  graph : Graph
  problems : List Problem := []
  /-- Number of look-ups done. -/
  walks : Nat := 0

namespace Resolver

/-- What a reference stands for. -/
def reference (s : Resolver) (id : NodeId) : Option NodeRef × Resolver :=
  match s.graph.reference? id with
  | none => (none, s)
  | some r =>
    match r.target with
    | some target => (some target, s)
    | none =>
      match s.graph.parent? id with
      | none => (none, { s with walks := s.walks + 1 })
      | some parent =>
        let (found, problem) := s.graph.resolve (.node parent) r
        (found,
          { graph := s.graph.update id fun
              | .reference r => .reference { r with target := found }
              | k => k
            problems := s.problems ++ problem.toList
            walks := s.walks + 1 })

/-- Resolves all references that a node owns, directly or not. -/
def all (s : Resolver) (id : NodeId) : Resolver :=
  (s.graph.below id).foldl (fun s id => (s.reference id).2) s

end Resolver

end CueScope
