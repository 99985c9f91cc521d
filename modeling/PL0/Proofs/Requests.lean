/-!
This module contains objects that answer one request after the other, together with the log of what
was asked and answered. What holds of an object and its log is kept by each request, and so by every
sequence of requests.
-/

namespace PL0

/-- An object, and the requests it has met so far with their answers, the oldest first. -/
structure Served (σ ρ α : Type) where
  log : List (ρ × α)
  state : σ

namespace Served

variable {σ ρ α : Type}

/-- An object that has not been asked anything. -/
def fresh (state : σ) : Served σ ρ α := ⟨[], state⟩

def serve (perform : σ → ρ → α × σ) (x : Served σ ρ α) (request : ρ) : Served σ ρ α :=
  ⟨x.log ++ [(request, (perform x.state request).1)], (perform x.state request).2⟩

def serveAll (perform : σ → ρ → α × σ) (x : Served σ ρ α) (requests : List ρ) : Served σ ρ α :=
  requests.foldl (serve perform) x

variable {perform : σ → ρ → α × σ}

@[simp]
theorem serveAll_nil (x : Served σ ρ α) : x.serveAll perform [] = x := rfl

@[simp]
theorem serveAll_cons (x : Served σ ρ α) (request : ρ) (requests : List ρ) :
    x.serveAll perform (request :: requests) =
      (x.serve perform request).serveAll perform requests := rfl

theorem serveAll_append (x : Served σ ρ α) (requests more : List ρ) :
    x.serveAll perform (requests ++ more) = (x.serveAll perform requests).serveAll perform more :=
  List.foldl_append

theorem map_fst_log_serveAll (x : Served σ ρ α) (requests : List ρ) :
    (x.serveAll perform requests).log.map (·.1) = x.log.map (·.1) ++ requests := by
  induction requests generalizing x with
  | nil => simp
  | cons request requests ih =>
    rw [serveAll_cons, ih, serve, List.map_append, List.append_assoc]
    rfl

theorem serveAll_of_serve (Keeps : Served σ ρ α → Prop)
    (hserve : ∀ {x : Served σ ρ α} (request : ρ), Keeps x → Keeps (x.serve perform request))
    {x : Served σ ρ α} (h : Keeps x) (requests : List ρ) : Keeps (x.serveAll perform requests) := by
  induction requests generalizing x with
  | nil => exact h
  | cons request requests ih =>
    rw [serveAll_cons]
    apply ih
    exact hserve request h

end Served
end PL0
