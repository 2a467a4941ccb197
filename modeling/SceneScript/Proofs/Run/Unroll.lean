import Mathlib.Data.Fintype.Card
import Mathlib.Logic.Function.Iterate
import SceneScript.Native.Probe
import SceneScript.Proofs.Run.Agreement

/-! Loops as lists of statements. The bounds of a loop are looked at once, before its first round,
so the loop is the list in which, for each counter in turn, the variable is assigned and the body
follows. A counter that is too great to move makes the loop endless. -/

namespace SceneScript

variable {ν : Type}

namespace Number

/-- The counter of a loop after `k` rounds. -/
def counter (first : Number) (k : Nat) : Number := (· + .one)^[k] first

theorem counter_succ (first : Number) (k : Nat) :
    first.counter (k + 1) = (first + .one).counter k :=
  Function.iterate_succ_apply _ k first

theorem counter_add (first : Number) (j k : Nat) :
    first.counter (j + k) = (first.counter k).counter j :=
  Function.iterate_add_apply _ j k first

theorem counters_succ (first : Number) (n : Nat) :
    (List.range (n + 1)).map first.counter =
      first :: (List.range n).map (first + .one).counter := by
  rw [List.range_succ_eq_map, List.map_cons, List.map_map]
  refine congrArg _ (List.map_congr_left fun k _ => ?_)
  exact first.counter_succ k

variable {first stop : Number} {n : Nat}

/-- A counter that leaves the range has come to no number twice on the way. -/
theorem counter_injective (hbelow : ∀ j < n, (first.counter j).less stop = true)
    (hleaves : (first.counter n).less stop = false) {i j : Nat} (hij : i < j) (hj : j ≤ n) :
    first.counter i ≠ first.counter j := by
  intro h
  -- From two equal counters on, as many rounds lead to equal ones: one inside, one outside.
  have hsame : first.counter (n - j + i) = first.counter n := by
    calc first.counter (n - j + i)
        = (first.counter i).counter (n - j) := first.counter_add (n - j) i
      _ = (first.counter j).counter (n - j) := by rw [h]
      _ = first.counter (n - j + j) := (first.counter_add (n - j) j).symm
      _ = first.counter n := by rw [Nat.sub_add_cancel hj]
  have hinside := hbelow (n - j + i) (by omega)
  rw [hsame, hleaves] at hinside
  cases hinside

/-- There are not enough numbers for a loop that ends to exceed its limit. -/
theorem rounds_lt_countLimit (hbelow : ∀ j < n, (first.counter j).less stop = true)
    (hleaves : (first.counter n).less stop = false) : n < Run.countLimit := by
  let place (j : Fin (n + 1)) : Fin UInt64.size := (first.counter j).bits.toFin
  have hplace : Function.Injective place := by
    intro i j hij
    have hcounter : first.counter i = first.counter j := by
      cases hi : first.counter i
      cases hj : first.counter j
      simp only [place, hi, hj] at hij
      rw [UInt64.toFin_inj.mp hij]
    have hne : ∀ i j : Fin (n + 1), i < j → first.counter i ≠ first.counter j :=
      fun i j hij => counter_injective hbelow hleaves hij (Nat.le_of_lt_succ j.isLt)
    obtain hlt | heq | hlt := lt_trichotomy i j
    · exact absurd hcounter (hne i j hlt)
    · exact heq
    · exact absurd hcounter.symm (hne j i hlt)
  have hcard := Fintype.card_le_of_injective place hplace
  rw [Fintype.card_fin, Fintype.card_fin] at hcard
  exact hcard

end Number

/-- The statements that a loop stands for whose variable runs through the given counters. -/
def Stmt.unrolled (pos : Pos) (name : String) (body : List Stmt) (counters : List Number) :
    List Stmt :=
  counters.flatMap fun i => .assign pos name (.int pos i) :: body

namespace Run

/-- What ends in another way than with the next statement is not followed by anything. -/
theorem run_andThen_of_stopped {x y : Run ν (Flow ν)} {s t : State ν} {r : Except Failure (Flow ν)}
    (hx : x.run s = (r, t)) (hr : r ≠ .ok .next) : (andThen x y).run s = (r, t) := by
  unfold andThen
  rw [run_bind, hx]
  obtain f | _ | v := r
  · rfl
  · exact absurd rfl hr
  · rfl

/-- A loop whose counter stays where it is goes on for ever. -/
theorem iterate_endless {name : String} {body : Run ν (Flow ν)} {stop i : Number}
    (hin : i.less stop = true) (hstuck : i + .one = i)
    (hbody : ∀ s, ∃ t, body.run s = (.ok .next, t) ∧ t.outputs = s.outputs) (n : Nat)
    (s : State ν) :
    ∃ t, (iterate name body stop n i).run s = (.error .endless, t) ∧ t.outputs = s.outputs := by
  induction n generalizing s with
  | zero => exact ⟨s, rfl, rfl⟩
  | succ n ih =>
    obtain ⟨t, hround, hquiet⟩ := hbody { s with scopes := s.scopes.assign name (.whole i) }
    obtain ⟨u, hrest, hquiet'⟩ := ih t
    refine ⟨u, ?_, hquiet'.trans hquiet⟩
    rw [iterate, if_pos hin]
    show ((body >>= _ : Run ν (Flow ν)).run _) = _
    rw [run_bind, hround, ← hrest]
    show (iterate name body stop n (i + .one)).run t = _
    rw [hstuck]

variable (invoke : Invoke ν) (room : Nat) (pos : Pos) (name : String) (body : List Stmt)

/-- One round of a loop: the assignment and the body, before the rounds that follow. -/
theorem execAll_unrolled_cons (i : Number) (counters : List Number) :
    execAll invoke room (Stmt.unrolled pos name body (i :: counters)) = (do
      assign name (.whole i)
      andThen (execAll invoke room body)
        (execAll invoke room (Stmt.unrolled pos name body counters))) := by
  rw [Stmt.unrolled, List.flatMap_cons, List.cons_append, execAll_cons, execAll_append]
  rfl

theorem iterate_eq_unrolled {n limit : Nat} {first stop : Number}
    (hbelow : ∀ j < n, (first.counter j).less stop = true)
    (hleaves : (first.counter n).less stop = false) (hlimit : n < limit) :
    iterate name (execAll invoke room body) stop limit first =
      execAll invoke room (Stmt.unrolled pos name body ((List.range n).map first.counter)) := by
  obtain ⟨limit, rfl⟩ : ∃ l, limit = l + 1 := Nat.exists_eq_succ_of_ne_zero (by omega)
  induction n generalizing first limit with
  | zero =>
    have hout : first.less stop = false := hleaves
    unfold iterate
    rw [hout]
    rfl
  | succ n ih =>
    have hin : first.less stop = true := hbelow 0 (Nat.succ_pos n)
    obtain ⟨limit, rfl⟩ : ∃ l, limit = l + 1 := Nat.exists_eq_succ_of_ne_zero (by omega)
    have hrest := @ih (first + .one)
      (fun j hj => by rw [← Number.counter_succ]; exact hbelow (j + 1) (by omega))
      (by rw [← Number.counter_succ]; exact hleaves) limit (by omega)
    rw [Number.counters_succ, execAll_unrolled_cons, ← hrest]
    rw [iterate, if_pos hin]
    rfl

/-- The bounds of a loop, from the first to the second, evaluated once each. -/
theorem run_exec_loop {start stop : Expr} {v w : Value ν} {a b : Number} {s s' t : State ν}
    (hstart : (eval invoke room start).run s = (.ok v, s')) (ha : v.integer = .ok a)
    (hstop : (eval invoke room stop).run s' = (.ok w, t)) (hb : w.integer = .ok b) :
    (exec invoke room (.loop pos name start stop body)).run s =
      (iterate name (execAll invoke room body) b countLimit a).run t := by
  rw [exec, run_bind, hstart]
  show ((located start.pos v.integer >>= _ : Run ν (Flow ν)).run s') = _
  rw [ha]
  show ((eval invoke room stop >>= _ : Run ν (Flow ν)).run s') = _
  rw [run_bind, hstop]
  show ((located stop.pos w.integer >>= _ : Run ν (Flow ν)).run t) = _
  rw [hb]
  rfl

/-- A loop is its unrolling. When its bounds have come to `a` and `b` and the counter leaves the
range after `n` rounds, the loop does in the state behind them what the list of its rounds does. The
rounds depend on the bounds alone; the first statement that returns or fails ends the loop as it
stands, and a loop over nothing changes nothing. -/
theorem exec_loop_unrolled {start stop : Expr} {v w : Value ν} {a b : Number} {s s' t : State ν}
    (hstart : (eval invoke room start).run s = (.ok v, s')) (ha : v.integer = .ok a)
    (hstop : (eval invoke room stop).run s' = (.ok w, t)) (hb : w.integer = .ok b) {n : Nat}
    (hbelow : ∀ j < n, (a.counter j).less b = true) (hleaves : (a.counter n).less b = false) :
    let loop := exec invoke room (.loop pos name start stop body)
    let flat := Stmt.unrolled pos name body ((List.range n).map a.counter)
    loop.run s = (execAll invoke room flat).run t ∧
      (∀ before after r u, flat = before ++ after → (execAll invoke room before).run t = (r, u) →
        r ≠ .ok .next → loop.run s = (r, u)) ∧
      (a.less b = false → loop.run s = (.ok .next, t)) := by
  intro loop flat
  have hloop : loop.run s = (execAll invoke room flat).run t := by
    have hlimit := Number.rounds_lt_countLimit hbelow hleaves
    rw [← iterate_eq_unrolled invoke room pos name body hbelow hleaves hlimit]
    exact run_exec_loop invoke room pos name body hstart ha hstop hb
  refine ⟨hloop, ?_, fun hempty => ?_⟩
  · intro before after r u hflat hbefore hstopped
    rw [hloop, hflat, execAll_append]
    exact run_andThen_of_stopped hbefore hstopped
  · have hzero : n = 0 := by
      cases n with
      | zero => rfl
      | succ n =>
        have hin : a.less b = true := hbelow 0 (Nat.succ_pos n)
        rw [hempty] at hin
        cases hin
    subst hzero
    exact hloop

/-- A loop whose body changes the variable and the bound, and returns in its second round. -/
theorem exec_loop_unrolled_returning :
    let p : Pos := ⟨1, 1⟩
    let s : State Bench := { State.empty with
      scopes := .ofGlobals ⟨[("m", .int (.ofNat 3)),
        ("record", .fn (.native "record" (.probe .record)))]⟩ }
    let body : List Stmt := [.assign p "m" (.int p (.ofNat 0)),
      .expr p (.call p "record" [.ident p "n"]),
      .assign p "n" (.binary p (.arith .add) (.ident p "n") (.int p (.ofNat 10))),
      .cond p (.binary p (.compare .ge) (.ident p "n") (.int p (.ofNat 11)))
        [.ret p (.ident p "n")] .none]
    let call := Run.invoke Bench.natives 1 1
    let r := (exec call 1 (.loop p "n" (.int p (.ofNat 0)) (.ident p "m") body)).run s
    r = (execAll call 1 (Stmt.unrolled p "n" body [.ofNat 0, .ofNat 1, .ofNat 2])).run s ∧
      r.2.outputs.size = 2 := by
  intro p s body call r
  have hwhole : (Number.ofNat 0).truncate = .ofNat 0 := by decide +kernel
  have hstart : (eval call 1 (.int p (.ofNat 0))).run s = (.ok (.int (.ofNat 0)), s) := by
    show (Except.ok (Value.int (Number.ofNat 0).truncate), s) = _
    rw [hwhole]
  have hbelow : ∀ j < 3, ((Number.ofNat 0).counter j).less (.ofNat 3) = true := by decide +kernel
  have hleaves : ((Number.ofNat 0).counter 3).less (.ofNat 3) = false := by decide +kernel
  have hcounters : (List.range 3).map (Number.ofNat 0).counter =
      [.ofNat 0, .ofNat 1, .ofNat 2] := by decide +kernel
  have hstop : (eval call 1 (.ident p "m")).run s = (.ok (.int (.ofNat 3)), s) := rfl
  have hloop := (exec_loop_unrolled call 1 p "n" body hstart rfl hstop rfl hbelow hleaves).1
  rw [hcounters] at hloop
  exact ⟨hloop, by decide +kernel⟩

end Run

end SceneScript
