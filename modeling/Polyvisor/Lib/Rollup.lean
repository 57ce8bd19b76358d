import Polyvisor.Lib.Frontier

/-!
# Frontiers over a store with roll-ups

Sealed items, each made on top of earlier ones and carrying keys of some of them, and roll-ups, each
carrying a range of items bodily and keys of what lies below the range. A reader enters at the
frontier, opens what is held there, and goes on with the keys it finds. Held items are dropped once
a roll-up carries them, and entries leave the frontier once something else leads to them.

* `Live`: what the reader gets a key for.
* `Kept`: what roll-ups the frontier leads to account for all by themselves, everything below it
  included. Dropping items does not touch it.
* `KeepsRollups`: a step that drops no roll-up and strands none. `Open`, `Bundled` and `Kept`
  survive it.
* `follow`: if each entry of the frontier is still led to or kept, and each dropped item is carried
  with all below it kept, then whatever was followed still is.
* `followed_of_named`: entries may leave for anything that a batch of opened envelopes names.
-/

namespace Frontier

open Relation

/-- What the envelopes of a family of items and roll-ups carry. -/
structure Sealing (α : Type*) where
  /-- The envelope of `x` carries the key of `y`. -/
  names : α → α → Prop
  /-- The item `x` was made on top of `y`. -/
  rests : α → α → Prop
  /-- The roll-up `x` carries the item `y` bodily. -/
  carries : α → α → Prop
  rollup : α → Prop
  rests_of_names : ∀ {x y}, names x y → ¬ rollup x → rests x y
  not_rollup_of_rests : ∀ {x y}, rests x y → ¬ rollup y
  not_rollup_of_carries : ∀ {x y}, carries x y → ¬ rollup y

/-- A store and the entry points of a reader. -/
structure Holding (α : Type*) where
  held : Set α
  heads : Set α

namespace Holding

variable {α : Type*} (S : Sealing α)

/-- The reader gets a key for `x`. -/
def Live (s : Holding α) (x : α) : Prop :=
  Reach (fun a b => a ∈ s.held ∧ S.names a b) s.heads x

/-- A roll-up the reader can open. -/
structure Open (s : Holding α) (r : α) : Prop where
  rollup : S.rollup r
  held : r ∈ s.held
  live : s.Live S r

/-- A roll-up the reader can open carries the item. -/
def Bundled (s : Holding α) (y : α) : Prop :=
  ∃ r, s.Open S r ∧ S.carries r y

/-- Roll-ups the reader can open give a key for `y`, or carry `y` while everything `y` rests on is
kept. -/
inductive Kept (s : Holding α) : α → Prop
  | named {r y} (hr : s.Open S r) (hy : S.names r y) : Kept s y
  | carried {y} (hy : s.Bundled S y) (hrest : ∀ z, S.rests y z → Kept s z) : Kept s y

/-- An item the store may drop. -/
def Sheltered (s : Holding α) (y : α) : Prop :=
  s.Bundled S y ∧ ∀ z, S.rests y z → s.Kept S z

/-- The reader gets a key for `x`, or roll-ups account for it. -/
def Followed (s : Holding α) (x : α) : Prop :=
  s.Live S x ∨ s.Kept S x

/-- The reader gets the content of the item `y`. -/
def Recoverable (s : Holding α) (y : α) : Prop :=
  s.Bundled S y ∨ y ∈ s.held ∧ s.Live S y

variable {S} {s s' : Holding α} {x y : α}

theorem Live.step (h : s.Live S x) (hx : x ∈ s.held) (hxy : S.names x y) : s.Live S y :=
  Reach.tail h ⟨hx, hxy⟩

theorem Open.live_of_names (h : s.Open S x) (hxy : S.names x y) : s.Live S y :=
  h.live.step h.held hxy

/-- Only a roll-up leads to a roll-up. -/
theorem rollup_of_names (hxy : S.names x y) (hy : S.rollup y) : S.rollup x := by
  by_contra hx
  exact S.not_rollup_of_rests (S.rests_of_names hxy hx) hy

/-- A kept roll-up is one the reader has a key for: nothing carries a roll-up bodily. -/
theorem Kept.live (h : s.Kept S x) (hx : S.rollup x) : s.Live S x := by
  cases h with
  | named hr hy => exact hr.live_of_names hy
  | carried hy _ =>
    obtain ⟨r, -, hcarries⟩ := hy
    exact absurd hx (S.not_rollup_of_carries hcarries)

theorem Followed.live (h : s.Followed S x) (hx : S.rollup x) : s.Live S x :=
  h.elim id fun h => h.live hx

/-- What a followed vertex names is followed, if the vertex is held or an item the store could
drop. -/
theorem Followed.of_names (h : s.Followed S x)
    (hx : x ∈ s.held ∨ ¬ S.rollup x ∧ ∀ z, S.rests x z → s.Kept S z) (hxy : S.names x y) :
    s.Followed S y := by
  rcases hx with hheld | ⟨hitem, hrest⟩
  · rcases h with hlive | hkept
    · exact .inl (hlive.step hheld hxy)
    · cases hkept with
      | named hr hy => exact .inl ((hr.live_of_names hy).step hheld hxy)
      | carried hy hrest =>
        obtain ⟨r, -, hcarries⟩ := hy
        exact .inr (hrest y (S.rests_of_names hxy (S.not_rollup_of_carries hcarries)))
  · exact .inr (hrest y (S.rests_of_names hxy hitem))

/-! ## Steps that keep the roll-ups -/

/-- A step that drops no roll-up, and after which every roll-up at the frontier is still led to. -/
structure KeepsRollups (S : Sealing α) (s s' : Holding α) : Prop where
  held : ∀ r ∈ s.held, S.rollup r → r ∈ s'.held
  heads : ∀ r ∈ s.heads, S.rollup r → s'.Live S r

theorem KeepsRollups.live (h : KeepsRollups S s s') (hx : S.rollup x) (hlive : s.Live S x) :
    s'.Live S x := by
  obtain ⟨r, hr, hpath⟩ := hlive
  induction hpath with
  | refl => exact h.heads r hr hx
  | @tail y z _ hyz ih =>
    have hy : S.rollup y := rollup_of_names hyz.2 hx
    exact (ih hy).step (h.held y hyz.1 hy) hyz.2

theorem KeepsRollups.open (h : KeepsRollups S s s') (hr : s.Open S x) : s'.Open S x :=
  ⟨hr.rollup, h.held x hr.held hr.rollup, h.live hr.rollup hr.live⟩

theorem KeepsRollups.bundled (h : KeepsRollups S s s') (hy : s.Bundled S y) : s'.Bundled S y := by
  obtain ⟨r, hr, hcarries⟩ := hy
  exact ⟨r, h.open hr, hcarries⟩

theorem KeepsRollups.kept (h : KeepsRollups S s s') (hy : s.Kept S y) : s'.Kept S y := by
  induction hy with
  | named hr hy => exact .named (h.open hr) hy
  | carried hy _ ih => exact .carried (h.bundled hy) ih

theorem KeepsRollups.sheltered (h : KeepsRollups S s s') (hy : s.Sheltered S y) :
    s'.Sheltered S y :=
  ⟨h.bundled hy.1, fun z hz => h.kept (hy.2 z hz)⟩

/-- A step after which all that could be followed still can. -/
structure Keeps (S : Sealing α) (s s' : Holding α) : Prop extends KeepsRollups S s s' where
  entries : ∀ r ∈ s.heads, s'.Followed S r
  dropped : ∀ x ∈ s.held, x ∈ s'.held ∨ ¬ S.rollup x ∧ s'.Sheltered S x

/-- Along every path of the old frontier, each vertex is led to by the new one or accounted for by
roll-ups. -/
theorem Keeps.follow (h : Keeps S s s') (hx : s.Live S x) : s'.Followed S x := by
  obtain ⟨r, hr, hpath⟩ := hx
  induction hpath with
  | refl => exact h.entries r hr
  | @tail y z _ hyz ih =>
    refine ih.of_names ?_ hyz.2
    exact (h.dropped y hyz.1).imp_right fun hy => ⟨hy.1, hy.2.2⟩

/-- What could be recovered still can. -/
theorem Keeps.recoverable (h : Keeps S s s') (hy : s.Recoverable S y) : s'.Recoverable S y := by
  rcases hy with hbundled | ⟨hheld, hlive⟩
  · exact .inl (h.toKeepsRollups.bundled hbundled)
  · rcases h.dropped y hheld with hheld' | ⟨-, hsheltered⟩
    · rcases h.follow hlive with hlive' | hkept
      · exact .inr ⟨hheld', hlive'⟩
      · cases hkept with
        | named hr hy => exact .inr ⟨hheld', hr.live_of_names hy⟩
        | carried hy _ => exact .inl hy
    · exact .inl hsheltered.1

/-- A step that only adds. -/
theorem keeps_of_subset (hheld : s.held ⊆ s'.held) (hheads : s.heads ⊆ s'.heads) :
    Keeps S s s' where
  held _ hr _ := hheld hr
  heads _ hr _ := .of_mem (hheads hr)
  entries _ hr := .inl (.of_mem (hheads hr))
  dropped _ hx := .inl (hheld hx)

/-! ## Entries replaced by a batch -/

/-- If each opened vertex is an entry or named by another opened one, each of them is followed. The
induction is on how far the rank lies below a bound of the ranks of what was opened. -/
theorem followed_of_named {rank : α → ℕ} (hrank : ∀ x y, S.names x y → rank y < rank x)
    {opened : Set α} {bound : ℕ} (hbound : ∀ x ∈ opened, rank x ≤ bound)
    (hopened : ∀ x ∈ opened, x ∈ s.heads ∨ ∃ y ∈ opened, S.names y x)
    (hheld : ∀ x ∈ opened, x ∈ s.held ∨ ¬ S.rollup x ∧ ∀ z, S.rests x z → s.Kept S z)
    (hx : x ∈ opened) : s.Followed S x := by
  induction hd : bound - rank x using Nat.strong_induction_on generalizing x with
  | _ d ih =>
    rcases hopened x hx with hhead | ⟨y, hy, hyx⟩
    · exact .inl (.of_mem hhead)
    · have hlt := hrank y x hyx
      have hle := hbound y hy
      have hfollowed : s.Followed S y := ih (bound - rank y) (by omega) hy rfl
      exact hfollowed.of_names (hheld y hy) hyx

/-- The same for roll-ups, which are never dropped. -/
theorem live_of_named {rank : α → ℕ} (hrank : ∀ x y, S.names x y → rank y < rank x)
    {opened : Set α} {bound : ℕ} (hbound : ∀ x ∈ opened, rank x ≤ bound)
    (hopened : ∀ x ∈ opened, S.rollup x → x ∈ s.heads ∨ ∃ y ∈ opened, S.names y x)
    (hheld : ∀ x ∈ opened, S.rollup x → x ∈ s.held) (hx : x ∈ opened) (hrollup : S.rollup x) :
    s.Live S x := by
  have hreach : Reach (fun a b => a ∈ s.held ∧ S.names a b) s.heads x := by
    refine reach_of_replaced (fun a b hab => hrank a b hab.2)
      (X := {x | x ∈ opened ∧ S.rollup x}) (fun x hx => hbound x hx.1) (fun x hx => ?_)
      ⟨hx, hrollup⟩
    refine (hopened x hx.1 hx.2).imp_right fun ⟨y, hy, hyx⟩ => ?_
    have hroll := rollup_of_names hyx hx.2
    exact ⟨y, ⟨hy, hroll⟩, .single ⟨hheld y hy hroll, hyx⟩⟩
  exact hreach

end Holding

end Frontier
