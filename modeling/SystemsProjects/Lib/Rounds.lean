import SystemsProjects.Lib.Exec

/-!
# Rounds of requests and releases

A client takes resources for a list of requests and gives all of them back, round after round,
in any order.  Some calls are *quiet*: they are served without help from outside.  `Steady`
says that from now on all rounds of the same requests consist of quiet calls.

The rules are about a predicate `Serving s rest held`: in state `s` the requests `rest` can be
served quietly, and `held` are the resources that the client has, each with its request.  If a
quiet call serves one of the requests, and a release makes room for the request that the
resource was taken for (`RoundRules`), then a first round of calls of any kind leads to a
steady state.
-/

namespace SystemsProjects
namespace Lib

universe u

variable {ε ρ π : Type*} {σ : Type u}

/-- Release each of the resources. -/
def releaseAll (release : σ → π → Except ε σ) (s : σ) (ps : List π) : Except ε σ :=
  ps.foldlM release s

/-- **The next `n` rounds are quiet.**  In each round the requests come in any order, every call
is quiet, and the resources can be released in any order. -/
def Steady (quiet : σ → ρ → π → σ → Prop) (release : σ → π → Except ε σ) (requests : List ρ) :
    ℕ → σ → Prop
  | 0, _ => True
  | n + 1, s => ∀ requests' : List ρ, requests'.Perm requests →
      ∃ (tr : List (ρ × π)) (s₁ : σ), tr.map Prod.fst = requests' ∧ Run quiet s tr s₁ ∧
        ∀ order : List π, order.Perm (tr.map Prod.snd) →
          ∃ s₂, releaseAll release s₁ order = .ok s₂ ∧ Steady quiet release requests n s₂

/-- What one call does to the requests that can be served and the resources that are held. -/
structure RoundRules (serve quiet : σ → ρ → π → σ → Prop) (release : σ → π → Except ε σ)
    (Serving : σ → List ρ → List (π × ρ) → Prop) : Prop where
  /-- a call of any kind -/
  serve : ∀ {s s' : σ} {r : ρ} {p : π} {held : List (π × ρ)},
    Serving s [] held → serve s r p s' → Serving s' [] ((p, r) :: held)
  /-- a request that can be served is served by a quiet call -/
  quiet : ∀ {s : σ} {r : ρ} {rest : List ρ} {held : List (π × ρ)},
    Serving s (r :: rest) held → ∃ p s', quiet s r p s' ∧ Serving s' rest ((p, r) :: held)
  /-- a resource that is released can serve its request again -/
  release : ∀ {s : σ} {rest : List ρ} {held : List (π × ρ)} {e : π × ρ},
    Serving s rest held → e ∈ held →
      ∃ s' others, release s e.1 = .ok s' ∧ held.Perm (e :: others) ∧
        Serving s' (e.2 :: rest) others
  perm : ∀ {s : σ} {rest rest' : List ρ} {held : List (π × ρ)},
    Serving s rest held → rest.Perm rest' → Serving s rest' held

namespace RoundRules

variable {serve quiet : σ → ρ → π → σ → Prop} {release : σ → π → Except ε σ}
  {Serving : σ → List ρ → List (π × ρ) → Prop} {s s₁ : σ} {tr : List (ρ × π)}
  {held : List (π × ρ)}

/-- The calls of the first round. -/
theorem run (k : RoundRules serve quiet release Serving) (hrun : Run serve s tr s₁) :
    ∀ {held : List (π × ρ)}, Serving s [] held →
      ∃ held₁, held₁.Perm (tr.map Prod.swap ++ held) ∧ Serving s₁ [] held₁ := by
  induction hrun with
  | nil s => exact fun v => ⟨_, List.Perm.refl _, v⟩
  | cons hstep _ ih =>
    intro held v
    obtain ⟨held₁, hperm, v₁⟩ := ih (k.serve v hstep)
    exact ⟨held₁, hperm.trans List.perm_middle, v₁⟩

/-- The calls of a later round. -/
theorem quiet_run (k : RoundRules serve quiet release Serving) (requests : List ρ) :
    ∀ {s : σ} {held : List (π × ρ)}, Serving s requests held →
      ∃ (tr : List (ρ × π)) (s₁ : σ) (held₁ : List (π × ρ)), tr.map Prod.fst = requests ∧
        Run quiet s tr s₁ ∧ held₁.Perm (tr.map Prod.swap ++ held) ∧ Serving s₁ [] held₁ := by
  induction requests with
  | nil => exact fun {s held} v => ⟨[], s, held, rfl, Run.nil s, List.Perm.refl _, v⟩
  | cons r requests ih =>
    intro s held v
    obtain ⟨p, s', hquiet, v'⟩ := k.quiet v
    obtain ⟨tr, s₁, held₁, hrequests, hrun, hperm, v₁⟩ := ih v'
    refine ⟨(r, p) :: tr, s₁, held₁, ?_, Run.cons hquiet hrun, ?_, v₁⟩
    · rw [List.map_cons, hrequests]
    · exact hperm.trans List.perm_middle

/-- **All resources are released, in any order.** -/
theorem releaseAll (k : RoundRules serve quiet release Serving) (order : List π) :
    ∀ {s : σ} {rest : List ρ} {held : List (π × ρ)}, Serving s rest held →
      order.Perm (held.map Prod.fst) →
        ∃ s', releaseAll release s order = .ok s' ∧
          Serving s' (held.map Prod.snd ++ rest) [] := by
  induction order with
  | nil =>
    intro s rest held v hperm
    have hnil : held = [] := List.map_eq_nil_iff.mp hperm.symm.eq_nil
    subst hnil
    exact ⟨s, rfl, v⟩
  | cons p order ih =>
    intro s rest held v hperm
    obtain ⟨e, he, rfl⟩ := List.mem_map.mp (hperm.mem_iff.mp List.mem_cons_self)
    obtain ⟨s₁, others, hrelease, hothers, v₁⟩ := k.release v he
    have hrest : order.Perm (others.map Prod.fst) :=
      (hperm.trans (hothers.map Prod.fst)).cons_inv
    obtain ⟨s₂, hall, v₂⟩ := ih v₁ hrest
    refine ⟨s₂, ?_, k.perm v₂ ?_⟩
    · rw [Lib.releaseAll, List.foldlM_cons, hrelease, ok_bind]
      exact hall
    · exact List.perm_middle.trans ((hothers.map Prod.snd).symm.append_right rest)

/-- **The end of a round**: the requests of the round can be served again. -/
theorem end_round (k : RoundRules serve quiet release Serving) {order : List π}
    (v : Serving s [] held) (hheld : held.Perm (tr.map Prod.swap))
    (horder : order.Perm (tr.map Prod.snd)) :
    ∃ s', Lib.releaseAll release s order = .ok s' ∧ Serving s' (tr.map Prod.fst) [] := by
  have hresources := hheld.map Prod.fst
  have hrequests := hheld.map Prod.snd
  rw [List.map_map] at hresources hrequests
  obtain ⟨s', hall, v'⟩ := k.releaseAll order v (horder.trans hresources.symm)
  rw [List.append_nil] at v'
  exact ⟨s', hall, k.perm v' hrequests⟩

/-- **Round after round.** -/
theorem steady (k : RoundRules serve quiet release Serving) {requests : List ρ} (n : ℕ) :
    ∀ {s : σ}, Serving s requests [] → Steady quiet release requests n s := by
  induction n with
  | zero => exact fun _ => trivial
  | succ n ih =>
    intro s v requests' hperm
    obtain ⟨tr, s₁, held, hrequests, hrun, hheld, v₁⟩ := k.quiet_run _ (k.perm v hperm.symm)
    rw [List.append_nil] at hheld
    refine ⟨tr, s₁, hrequests, hrun, fun order horder => ?_⟩
    obtain ⟨s₂, hall, v₂⟩ := k.end_round v₁ hheld horder
    rw [hrequests] at v₂
    exact ⟨s₂, hall, ih (k.perm v₂ hperm)⟩

end RoundRules

/-- Of pairs with different keys, one and the other ones. -/
theorem perm_cons_filter_ne {κ ν : Type*} [DecidableEq κ] {l : List (κ × ν)}
    (h : (l.map Prod.fst).Nodup) {e : κ × ν} (he : e ∈ l) :
    l.Perm (e :: l.filter fun d => d.1 ≠ e.1) := by
  have hnodup : l.Nodup := h.of_map
  refine (List.perm_ext_iff_of_nodup hnodup (List.nodup_cons.mpr ⟨fun hmem => ?_,
    hnodup.filter _⟩)).mpr fun d => ?_
  · exact of_decide_eq_true (List.mem_filter.mp hmem).2 rfl
  · rw [List.mem_cons, List.mem_filter]
    constructor
    · intro hd
      by_cases hde : d.1 = e.1
      · exact Or.inl (List.inj_on_of_nodup_map h hd he hde)
      · exact Or.inr ⟨hd, decide_eq_true hde⟩
    · rintro (rfl | ⟨hd, -⟩)
      · exact he
      · exact hd

end Lib
end SystemsProjects
