/-
  QueryPlanner.Proofs.Pattern.Regex.Reading

  What a pattern is read as.

  Every token is begun by a character of its own kind, so an alternative needs
  a bar in the pattern, and a repetition has its bounds in order.
-/

import Mathlib.Tactic.SplitIfs
import QueryPlanner.Pattern.Regex.Reader
import QueryPlanner.Proofs.Pattern.Regex.Meaning

namespace QueryPlanner.Regex

variable {anyCase : Bool} {c : Char} {cs rest : List Char} {t : Token} {ts : List Token}
  {lo k : Nat} {hi : Option Nat} {r : Regex}

/-! ## Tokens -/

/-- The bounds of a quantifier are in order. -/
theorem le_of_bounds? (h : bounds? cs = some (lo, hi, k)) : ∀ m ∈ hi, lo ≤ m := by
  rw [bounds?] at h
  split at h
  · cases h
  · split at h
    · cases h
      rintro m ⟨⟩
      exact le_refl lo
    · cases h
      exact nofun
    · split at h
      · cases h
      · split_ifs at h with hbounds
        cases h
        rintro m ⟨⟩
        exact hbounds.2
    · cases h

/-- What a token owes to its first character: only a bar begins an
alternative, only a quantifier a repetition, and all bounds are in order. -/
def Token.BegunBy (c : Char) : Token → Prop
  | .bar => c = '|'
  | .times lo hi => c ∈ ['*', '+', '?', '{'] ∧ ∀ m ∈ hi, lo ≤ m
  | .atom r => r.IsBounded
  | .open | .close => True

theorem begunBy_of_token? (h : token? anyCase c rest = some (t, k)) : t.BegunBy c := by
  rw [token?.eq_def] at h
  split at h
  case h_1 =>
    split at h <;> cases h <;> trivial
  case h_2 | h_3 | h_4 | h_5 | h_6 =>
    cases h
    trivial
  case h_7 | h_8 =>
    cases h
    exact ⟨by decide, nofun⟩
  case h_9 =>
    cases h
    exact ⟨by decide, fun _ _ => Nat.zero_le _⟩
  case h_10 =>
    obtain ⟨⟨lo, hi, n⟩, hbounds, h⟩ := Option.map_eq_some_iff.mp h
    cases h
    exact ⟨by decide, le_of_bounds? hbounds⟩
  case h_11 | h_13 =>
    obtain ⟨_, -, h⟩ := Option.map_eq_some_iff.mp h
    cases h
    trivial
  case h_12 =>
    split at h
    · cases h
      trivial
    · cases h
      trivial
    · obtain ⟨_, -, h⟩ := Option.map_eq_some_iff.mp h
      cases h
      trivial

theorem tokens?_cons (h : tokens? anyCase (c :: cs) = some ts) :
    ∃ t k rest, token? anyCase c cs = some (t, k) ∧ tokens? anyCase (cs.drop k) = some rest ∧
      ts = t :: rest := by
  rw [tokens?] at h
  split at h
  · cases h
  · rename_i t k ht
    obtain ⟨rest, hrest, rfl⟩ := Option.map_eq_some_iff.mp h
    exact ⟨t, k, rest, ht, hrest, rfl⟩

/-- Every token of a text is begun by one of its characters. -/
theorem exists_begunBy (h : tokens? anyCase cs = some ts) (ht : t ∈ ts) :
    ∃ c ∈ cs, t.BegunBy c := by
  induction hn : cs.length using Nat.strong_induction_on generalizing cs ts with
  | _ n ih =>
      cases cs with
      | nil =>
          rw [tokens?] at h
          cases h
          cases ht
      | cons c cs =>
          obtain ⟨u, k, rest, hu, hrest, rfl⟩ := tokens?_cons h
          obtain rfl | ht := List.mem_cons.mp ht
          · exact ⟨c, List.mem_cons_self, begunBy_of_token? hu⟩
          · have hshorter : (cs.drop k).length < n := by
              rw [← hn, List.length_drop, List.length_cons]
              omega
            obtain ⟨d, hd, hbegun⟩ := ih _ hshorter hrest ht rfl
            exact ⟨d, List.mem_cons_of_mem c (List.mem_of_mem_drop hd), hbegun⟩

/-- The token has its bounds in order. -/
def Token.IsBounded : Token → Prop
  | .times lo hi => ∀ m ∈ hi, lo ≤ m
  | .atom r => r.IsBounded
  | .open | .close | .bar => True

theorem isBounded_of_tokens? (h : tokens? anyCase cs = some ts) (ht : t ∈ ts) : t.IsBounded := by
  obtain ⟨c, -, hbegun⟩ := exists_begunBy h ht
  cases t with
  | times lo hi => exact hbegun.2
  | atom r => exact hbegun
  | «open» | close | bar => trivial

/-! ## Bounded expressions -/

theorem isBounded_concat {rs : List Regex} (h : ∀ r ∈ rs, r.IsBounded) : (concat rs).IsBounded := by
  fun_induction concat rs with
  | case1 => trivial
  | case2 r => exact h r List.mem_cons_self
  | case3 r rest _ ih =>
      exact ⟨h r List.mem_cons_self, ih fun x hx => h x (List.mem_cons_of_mem r hx)⟩

theorem isBounded_choice {rs : List Regex} (h : ∀ r ∈ rs, r.IsBounded) : (choice rs).IsBounded := by
  fun_induction choice rs with
  | case1 => trivial
  | case2 r => exact h r List.mem_cons_self
  | case3 r rest _ ih =>
      exact ⟨h r List.mem_cons_self, ih fun x hx => h x (List.mem_cons_of_mem r hx)⟩

/-- All that a group has been read to is bounded. -/
structure Group.IsBounded (g : Group) : Prop where
  done : ∀ r ∈ g.done, r.IsBounded
  factors : ∀ r ∈ g.factors, r.IsBounded

namespace Group.IsBounded

variable {g : Group}

theorem empty : ({} : Group).IsBounded := ⟨nofun, nofun⟩

theorem current (h : g.IsBounded) : g.current.IsBounded :=
  isBounded_concat fun r hr => h.factors r (List.mem_reverse.mp hr)

theorem close (h : g.IsBounded) : g.close.IsBounded :=
  isBounded_choice fun _ hr =>
    List.forall_mem_cons.mpr ⟨h.current, h.done⟩ _ (List.mem_reverse.mp hr)

theorem push (h : g.IsBounded) (hr : r.IsBounded) :
    ({ g with factors := r :: g.factors } : Group).IsBounded :=
  ⟨h.done, List.forall_mem_cons.mpr ⟨hr, h.factors⟩⟩

end Group.IsBounded

/-- What bounded tokens are read to is bounded. -/
theorem isBounded_of_assemble {g : Group} {outer : List Group} (hts : ∀ t ∈ ts, t.IsBounded)
    (hg : g.IsBounded) (houter : ∀ g ∈ outer, g.IsBounded)
    (h : assemble g outer ts = some r) : r.IsBounded := by
  fun_induction assemble g outer ts with
  | case1 g =>
      cases h
      exact hg.close
  | case2 | case4 | case8 => cases h
  | case3 g outer rest ih =>
      obtain ⟨-, hrest⟩ := List.forall_mem_cons.mp hts
      exact ih hrest .empty (List.forall_mem_cons.mpr ⟨hg, houter⟩) h
  | case5 g parent outer rest ih =>
      obtain ⟨-, hrest⟩ := List.forall_mem_cons.mp hts
      obtain ⟨hparent, houter⟩ := List.forall_mem_cons.mp houter
      exact ih hrest (hparent.push hg.close) houter h
  | case6 g outer rest ih =>
      obtain ⟨-, hrest⟩ := List.forall_mem_cons.mp hts
      exact ih hrest ⟨List.forall_mem_cons.mpr ⟨hg.current, hg.done⟩, nofun⟩ houter h
  | case7 g outer x rest ih =>
      obtain ⟨hx, hrest⟩ := List.forall_mem_cons.mp hts
      exact ih hrest (hg.push hx) houter h
  | case9 g outer lo hi rest x before hfactors ih =>
      obtain ⟨hbounds, hrest⟩ := List.forall_mem_cons.mp hts
      have hx := List.forall_mem_cons.mp (hfactors ▸ hg.factors)
      exact ih hrest ⟨hg.done, List.forall_mem_cons.mpr ⟨⟨hx.1, hbounds⟩, hx.2⟩⟩ houter h

theorem exists_of_parse? (h : parse? anyCase cs = some r) :
    ∃ ts, tokens? anyCase cs = some ts ∧ assemble {} [] ts = some r := by
  obtain ⟨ts, hts, h⟩ := Option.bind_eq_some_iff.mp h
  obtain ⟨r', hr', h⟩ := Option.bind_eq_some_iff.mp h
  split_ifs at h
  cases h
  exact ⟨ts, hts, hr'⟩

/-- What a pattern denotes is bounded. -/
theorem isBounded_of_parse? (h : parse? anyCase cs = some r) : r.IsBounded := by
  obtain ⟨ts, hts, h⟩ := exists_of_parse? h
  exact isBounded_of_assemble (fun _ => isBounded_of_tokens? hts) .empty
    (fun _ hg => absurd hg List.not_mem_nil) h

end QueryPlanner.Regex
