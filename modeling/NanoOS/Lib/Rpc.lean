/-
# Remote calls

A client sends a request to a server and waits for the reply. What has
happened is a trace of calls, replies and returns; `Phase` says where the call
of a client is, and `Agrees` what the trace then looks like: each request but
the last has one reply, in order, and each call that has returned has returned
what its reply says.

Key definitions: `Event`, `Phase`, `Agrees`.
Key theorems: `Agrees.call`, `Agrees.reply`, `Agrees.ret`, `Agrees.other`.
-/
import Mathlib.Data.List.Basic
import Mathlib.Tactic.Common

namespace Rpc

variable {C M R V : Type*} [DecidableEq C]

/-- What happens. -/
inductive Event (C M R V : Type*)
  /-- client `c` sends the request `m` -/
  | called (c : C) (m : M)
  /-- a server sends to `c` the reply `r` to `m` -/
  | replied (c : C) (m : M) (r : R)
  /-- the call of `c` returns `v` -/
  | returned (c : C) (v : V)

/-- The client of an event. -/
def Event.client : Event C M R V → C
  | called c _ => c
  | replied c _ _ => c
  | returned c _ => c

/-- The requests of `c`. -/
def calls (c : C) (t : List (Event C M R V)) : List M :=
  t.filterMap fun
    | .called c' m => if c' = c then some m else none
    | _ => none

/-- The replies to `c`, with the requests they answer. -/
def replies (c : C) (t : List (Event C M R V)) : List (M × R) :=
  t.filterMap fun
    | .replied c' m r => if c' = c then some (m, r) else none
    | _ => none

/-- What the calls of `c` have returned. -/
def returns (c : C) (t : List (Event C M R V)) : List V :=
  t.filterMap fun
    | .returned c' v => if c' = c then some v else none
    | _ => none

/-- Where the call of a client is. -/
inductive Phase (M R : Type*)
  | idle
  /-- the request `m` is with the server -/
  | sent (m : M)
  /-- the reply `r` is on its way -/
  | answered (m : M) (r : R)

namespace Phase

/-- The request that is not answered. -/
def unanswered : Phase M R → List M
  | sent m => [m]
  | _ => []

/-- The reply that is not received. -/
def unread : Phase M R → List R
  | answered _ r => [r]
  | _ => []

end Phase

/-- The trace of a client whose call is at `φ`. A call returns `val r` for the
reply `r`. -/
structure Agrees (val : R → V) (c : C) (t : List (Event C M R V)) (φ : Phase M R) : Prop where
  calls : calls c t = (replies c t).map Prod.fst ++ φ.unanswered
  returns : (replies c t).map (fun p => val p.2) = returns c t ++ φ.unread.map val

section

variable {val : R → V} {c : C} {t : List (Event C M R V)} {φ : Phase M R} {m : M} {r : R}

theorem agrees_nil (val : R → V) (c : C) : Agrees val c ([] : List (Event C M R V)) .idle := ⟨rfl, rfl⟩

/-- The events of others leave the trace of `c` as it is. -/
theorem append_of_ne {e : Event C M R V} (he : e.client ≠ c) : calls c (t ++ [e]) = calls c t ∧
    replies c (t ++ [e]) = replies c t ∧ returns c (t ++ [e]) = returns c t := by
  unfold calls replies returns
  cases e with
  | called c' m =>
    have hc : c' ≠ c := he
    simp [List.filterMap_append, hc]
  | replied c' m r =>
    have hc : c' ≠ c := he
    simp [List.filterMap_append, hc]
  | returned c' v =>
    have hc : c' ≠ c := he
    simp [List.filterMap_append, hc]

theorem Agrees.other {e : Event C M R V} (h : Agrees val c t φ) (he : e.client ≠ c) : Agrees val c (t ++ [e]) φ := by
  obtain ⟨hcalls, hreplies, hreturns⟩ := append_of_ne (t := t) he
  constructor
  · rw [hcalls, hreplies]
    exact h.calls
  · rw [hreplies, hreturns]
    exact h.returns

theorem append_called (c : C) (t : List (Event C M R V)) (m : M) : Rpc.calls c (t ++ [.called c m]) = Rpc.calls c t ++ [m] ∧
    replies c (t ++ [.called c m]) = replies c t ∧ Rpc.returns c (t ++ [.called c m]) = Rpc.returns c t := by
  simp [Rpc.calls, replies, Rpc.returns, List.filterMap_append]

theorem append_replied (c : C) (t : List (Event C M R V)) (m : M) (r : R) :
    Rpc.calls c (t ++ [.replied c m r]) = Rpc.calls c t ∧ replies c (t ++ [.replied c m r]) = replies c t ++ [(m, r)] ∧
    Rpc.returns c (t ++ [.replied c m r]) = Rpc.returns c t := by
  simp [Rpc.calls, replies, Rpc.returns, List.filterMap_append]

theorem append_returned (c : C) (t : List (Event C M R V)) (v : V) :
    Rpc.calls c (t ++ [.returned c v]) = Rpc.calls c t ∧ replies c (t ++ [.returned c v]) = replies c t ∧
    Rpc.returns c (t ++ [.returned c v]) = Rpc.returns c t ++ [v] := by
  simp [Rpc.calls, replies, Rpc.returns, List.filterMap_append]

theorem mem_of_mem_replies (h : (m, r) ∈ replies c t) : .replied c m r ∈ t := by
  unfold replies at h
  rw [List.mem_filterMap] at h
  obtain ⟨e, he, h⟩ := h
  cases e with
  | called => cases h
  | returned => cases h
  | replied c' m' r' =>
    dsimp only at h
    split at h
    · rename_i hc
      cases h
      rw [← hc]
      exact he
    · cases h

/-- A client without a call makes one. -/
theorem Agrees.call (h : Agrees val c t .idle) (m : M) : Agrees val c (t ++ [.called c m]) (.sent m) := by
  obtain ⟨hcalls, hreplies, hreturns⟩ := append_called c t m
  constructor
  · rw [hcalls, hreplies, h.calls, List.append_assoc]
    rfl
  · rw [hreplies, hreturns]
    exact h.returns

/-- The request is answered. -/
theorem Agrees.reply (h : Agrees val c t (.sent m)) (r : R) : Agrees val c (t ++ [.replied c m r]) (.answered m r) := by
  obtain ⟨hcalls, hreplies, hreturns⟩ := append_replied c t m r
  constructor
  · rw [hcalls, hreplies, h.calls, List.map_append]
    exact (List.append_nil _).symm
  · rw [hreplies, hreturns, List.map_append, h.returns, List.append_assoc]
    rfl

/-- The reply is received, and the call returns. -/
theorem Agrees.ret (h : Agrees val c t (.answered m r)) : Agrees val c (t ++ [.returned c (val r)]) .idle := by
  obtain ⟨hcalls, hreplies, hreturns⟩ := append_returned c t (val r)
  constructor
  · rw [hcalls, hreplies]
    exact h.calls
  · rw [hreplies, hreturns, h.returns, List.append_assoc]
    rfl

end

end Rpc
