/-! # Steps that take their choices from a list

A step of a state that holds the choices still to be made: how the first few of them decide what comes out, whatever
follows; and when a run of something else is one of those that the step can have. -/

namespace PveMeta
namespace Choices

/-- What of a state is seen, and the choices that it holds. -/
structure Frame (σ ν κ : Type) where
  view : σ → ν
  choices : σ → List κ

section

variable {σ ε α β γ : Type}

/-- One step after another that did not fail. -/
def andThen (step : σ → Except ε α × σ) (next : α → σ → Except ε β × σ) (w : σ) : Except ε β × σ :=
  match step w with
  | (.error e, w) => (.error e, w)
  | (.ok a, w) => next a w

def done (a : α) (w : σ) : Except ε α × σ := (.ok a, w)

variable {step : σ → Except ε α × σ} {next : α → σ → Except ε β × σ} {w w' : σ}

theorem andThen_ok {a : α} (h : step w = (.ok a, w')) : andThen step next w = next a w' := by
  rw [andThen, h]

theorem andThen_error {e : ε} (h : step w = (.error e, w')) : andThen step next w = (.error e, w') := by
  rw [andThen, h]

theorem of_andThen_ok {b : β} (h : andThen step next w = (.ok b, w')) :
    ∃ a w₁, step w = (.ok a, w₁) ∧ next a w₁ = (.ok b, w') := by
  unfold andThen at h
  split at h
  · cases h
  · next a w₁ hstep => exact ⟨a, w₁, hstep, h⟩

theorem andThen_assoc (step : σ → Except ε α × σ) (next : α → σ → Except ε β × σ) (last : β → σ → Except ε γ × σ) :
    andThen (andThen step next) last = andThen step fun a => andThen (next a) last := by
  funext w
  unfold andThen
  split
  · next e w' h =>
    split at h
    · cases h
      rfl
    · dsimp only
      rw [h]
  · next b w' h =>
    split at h
    · cases h
    · dsimp only
      rw [h]

theorem andThen_done (step : σ → Except ε α × σ) : andThen step done = step := by
  funext w
  unfold andThen
  split
  · next h => exact h.symm
  · next h => exact h.symm

theorem done_andThen (a : α) (next : α → σ → Except ε β × σ) : andThen (done a) next = next a := rfl

/-- The same step for each of some items, up to the first that fails. -/
def each (step : α → σ → Except ε β × σ) : List α → σ → Except ε (List β) × σ
  | [] => done []
  | a :: l => andThen (step a) fun b => andThen (each step l) fun bs => done (b :: bs)

end

variable {σ ν κ ε ε' α β : Type}

/-- What a row comes to, each of its steps came to. -/
theorem of_each_ok {σ ε α β : Type} {step : α → σ → Except ε β × σ} {P : β → Prop}
    (hstep : ∀ a w b w', step a w = (.ok b, w') → P b) {l : List α} {w w' : σ} {bs : List β}
      (h : each step l w = (.ok bs, w')) :
    bs.length = l.length ∧ ∀ b ∈ bs, P b := by
  induction l generalizing w bs with
  | nil =>
    cases h
    exact ⟨rfl, fun _ hb => nomatch hb⟩
  | cons a l ih =>
    obtain ⟨b, w₁, hb, h⟩ := of_andThen_ok h
    obtain ⟨bs', w₂, hbs, h⟩ := of_andThen_ok h
    cases h
    obtain ⟨hlength, hall⟩ := ih hbs
    exact ⟨by rw [List.length_cons, List.length_cons, hlength], List.forall_mem_cons.mpr ⟨hstep a w b w₁ hb, hall⟩⟩

theorem each_map {σ ε α β γ : Type} (step : β → σ → Except ε γ × σ) (g : α → β) (l : List α) :
    each step (l.map g) = each (fun a => step (g a)) l := by
  induction l with
  | nil => rfl
  | cons a l ih => rw [List.map_cons, each, ih, each]

/-! ### What every step keeps to -/

section

variable {σ ε α β : Type} {R : σ → σ → Prop} {w : σ}

theorem andThen_rel (htrans : ∀ {a b c}, R a b → R b c → R a c) {step : σ → Except ε α × σ} {next : α → σ → Except ε β × σ}
    (h : R w (step w).2) (hnext : ∀ a w', step w = (.ok a, w') → R w' (next a w').2) : R w (andThen step next w).2 := by
  rcases hstep : step w with ⟨_ | a, w'⟩
  · rw [andThen_error hstep]
    rwa [hstep] at h
  · rw [andThen_ok hstep]
    rw [hstep] at h
    exact htrans h (hnext a w' hstep)

theorem each_rel (hrefl : ∀ a, R a a) (htrans : ∀ {a b c}, R a b → R b c → R a c) {step : α → σ → Except ε β × σ}
    {l : List α} (h : ∀ a ∈ l, ∀ w, R w (step a w).2) (w : σ) : R w (each step l w).2 := by
  induction l generalizing w with
  | nil => exact hrefl w
  | cons a l ih =>
    have hrest (b : β) (w : σ) : R w (andThen (each step l) (fun bs => (done (b :: bs) : σ → Except ε (List β) × σ)) w).2 :=
      andThen_rel (R := R) htrans (ih (fun a ha => h a (List.mem_cons_of_mem _ ha)) w) fun bs w' _ => hrefl w'
    have hfirst : R w (step a w).2 := h a List.mem_cons_self w
    rw [each]
    exact andThen_rel (R := R) htrans hfirst fun b w' _ => hrest b w'

end

section

variable (F : Frame σ ν κ)

/-- With these choices the step comes to `a`. -/
def Goes (step : σ → Except ε α × σ) (v : ν) (ks : List κ) (a : α) (v' : ν) : Prop :=
  ∀ w rest, F.view w = v → F.choices w = ks ++ rest → ∃ w', step w = (.ok a, w') ∧ F.view w' = v' ∧ F.choices w' = rest

/-- With these choices the step fails, and what is seen of it then is like `v'`. -/
def Stops (like : ν → ν → Prop) (step : σ → Except ε α × σ) (v : ν) (ks : List κ) (v' : ν) : Prop :=
  ∀ w rest, F.view w = v → F.choices w = ks ++ rest → ∃ e w', step w = (.error e, w') ∧ like v' (F.view w')

end

variable {F : Frame σ ν κ} {like : ν → ν → Prop} {step : σ → Except ε α × σ} {next : α → σ → Except ε β × σ}
variable {v v' v'' : ν} {ks ks' : List κ} {a : α} {b : β}

theorem goes_done (a : α) (v : ν) : Goes F (done a : σ → Except ε α × σ) v [] a v := fun w _ hv hks => ⟨w, rfl, hv, hks⟩

theorem Goes.andThen (h : Goes F step v ks a v') (hn : Goes F (next a) v' ks' b v'') :
    Goes F (Choices.andThen step next) v (ks ++ ks') b v'' := by
  intro w rest hv hks
  obtain ⟨w₁, hstep, hv₁, hks₁⟩ := h w (ks' ++ rest) hv (by rw [hks, List.append_assoc])
  obtain ⟨w₂, hnext, hv₂, hks₂⟩ := hn w₁ rest hv₁ hks₁
  exact ⟨w₂, (andThen_ok hstep).trans hnext, hv₂, hks₂⟩

theorem Goes.andThen_stops (h : Goes F step v ks a v') (hn : Stops F like (next a) v' ks' v'') :
    Stops F like (Choices.andThen step next) v (ks ++ ks') v'' := by
  intro w rest hv hks
  obtain ⟨w₁, hstep, hv₁, hks₁⟩ := h w (ks' ++ rest) hv (by rw [hks, List.append_assoc])
  obtain ⟨e, w₂, hnext, hv₂⟩ := hn w₁ rest hv₁ hks₁
  exact ⟨e, w₂, (andThen_ok hstep).trans hnext, hv₂⟩

theorem Stops.andThen (h : Stops F like step v ks v') (next : α → σ → Except ε β × σ) :
    Stops F like (Choices.andThen step next) v ks v' := by
  intro w rest hv hks
  obtain ⟨e, w', hstep, hv'⟩ := h w rest hv hks
  exact ⟨e, w', andThen_error hstep, hv'⟩

/-! ### What comes of a step -/

/-- What something else came to, the step comes to with some choices that are allowed. -/
inductive Comes (F : Frame σ ν κ) (like : ν → ν → Prop) (may : κ → Prop) (step : σ → Except ε α × σ) (v : ν) :
    Except ε' α → ν → Prop where
  | ok {a : α} {v' : ν} (ks : List κ) (allowed : ∀ k ∈ ks, may k) (goes : Goes F step v ks a v') :
      Comes F like may step v (.ok a) v'
  | error {e : ε'} {v' : ν} (ks : List κ) (allowed : ∀ k ∈ ks, may k) (stops : Stops F like step v ks v') :
    Comes F like may step v (.error e) v'

variable {may : κ → Prop} {e e' : ε'} {r : Except ε' β}

theorem Comes.mono {may' : κ → Prop} {r : Except ε' α} (h : Comes F like may step v r v') (himp : ∀ k, may k → may' k) :
    Comes F like may' step v r v' := by
  cases h with
  | ok ks hks h => exact .ok ks (fun k hk => himp k (hks k hk)) h
  | error ks hks h => exact .error ks (fun k hk => himp k (hks k hk)) h

theorem comes_done (a : α) (v : ν) : Comes F like may (done a : σ → Except ε α × σ) v (.ok a : Except ε' α) v :=
  .ok [] (fun _ hk => nomatch hk) (goes_done a v)

theorem Comes.andThen (h : Comes F like may step v (.ok a : Except ε' α) v') (hn : Comes F like may (next a) v' r v'') :
    Comes F like may (Choices.andThen step next) v r v'' := by
  cases h with
  | ok ks hks h =>
    cases hn with
    | ok ks' hks' hn => exact .ok (ks ++ ks') (List.forall_mem_append.mpr ⟨hks, hks'⟩) (h.andThen hn)
    | error ks' hks' hn => exact .error (ks ++ ks') (List.forall_mem_append.mpr ⟨hks, hks'⟩) (h.andThen_stops hn)

theorem Comes.andThen_error (h : Comes F like may step v (.error e : Except ε' α) v') (next : α → σ → Except ε β × σ) :
    Comes F like may (Choices.andThen step next) v (.error e' : Except ε' β) v' := by
  cases h with
  | error ks hks h => exact .error ks hks (h.andThen next)

/-! ### What is cut short -/

/-- The step fails, or is the last one before whatever comes next is cut short. -/
inductive Ceases (F : Frame σ ν κ) (like : ν → ν → Prop) (may : κ → Prop) (cut : κ) (step : σ → Except ε α × σ)
    (v v' : ν) : Prop where
  | stops (ks : List κ) (allowed : ∀ k ∈ ks, may k) (stops : Stops F like step v ks v')
  | after (a : α) (ks : List κ) (allowed : ∀ k ∈ ks, may k) (maycut : may cut) (goes : Goes F step v ks a v')

variable {cut : κ}

theorem forall_mem_single (h : may cut) : ∀ k ∈ [cut], may k := fun _ hk => List.mem_singleton.mp hk ▸ h

/-- What comes next fails if it is cut short, so that all of it does. -/
theorem Ceases.andThen (h : Ceases F like may cut step v v') (hnext : ∀ a v, Stops F like (next a) v [cut] v) :
    ∃ ks, (∀ k ∈ ks, may k) ∧ Stops F like (Choices.andThen step next) v ks v' := by
  cases h with
  | stops ks hks h => exact ⟨ks, hks, h.andThen next⟩
  | after a ks hks hcut h =>
    exact ⟨ks ++ [cut], List.forall_mem_append.mpr ⟨hks, forall_mem_single hcut⟩, h.andThen_stops (hnext a v')⟩

theorem Goes.andThen_ceases (h : Goes F step v ks a v') (hks : ∀ k ∈ ks, may k)
    (hn : Ceases F like may cut (next a) v' v'') :
    Ceases F like may cut (Choices.andThen step next) v v'' := by
  cases hn with
  | stops ks' hks' hn => exact .stops (ks ++ ks') (List.forall_mem_append.mpr ⟨hks, hks'⟩) (h.andThen_stops hn)
  | after b ks' hks' hcut hn => exact .after b (ks ++ ks') (List.forall_mem_append.mpr ⟨hks, hks'⟩) hcut (h.andThen hn)

theorem Goes.andThen_done (h : Goes F step v ks a v') (g : α → β) :
    Goes F (Choices.andThen step fun a => done (g a)) v ks (g a) v' := by
  have hdone : Goes F (done (g a) : σ → Except ε β × σ) v' [] (g a) v' := goes_done _ _
  have hall : Goes F (Choices.andThen step fun a => done (g a)) v (ks ++ []) (g a) v' := h.andThen hdone
  exact List.append_nil ks ▸ hall

theorem Ceases.andThen_done (h : Ceases F like may cut step v v') (g : α → β) :
    Ceases F like may cut (Choices.andThen step fun a => done (g a)) v v' := by
  cases h with
  | stops ks hks h => exact .stops ks hks (h.andThen _)
  | after a ks hks hcut h => exact .after (g a) ks hks hcut (h.andThen_done g)

/-! ### In a row -/

section

variable {step : α → σ → Except ε β × σ} {l : List α}

theorem Goes.each {a : α} {bs : List β} (h : Goes F (step a) v ks b v') (hl : Goes F (Choices.each step l) v' ks' bs v'') :
    Goes F (Choices.each step (a :: l)) v (ks ++ ks') (b :: bs) v'' :=
  h.andThen (hl.andThen_done _)

theorem Goes.each_ceases {a : α} (h : Goes F (step a) v ks b v') (hks : ∀ k ∈ ks, may k)
    (hl : Ceases F like may cut (Choices.each step l) v' v'') : Ceases F like may cut (Choices.each step (a :: l)) v v'' :=
  h.andThen_ceases hks (hl.andThen_done _)

theorem each_cut (hcut : ∀ a v, Stops F like (step a) v [cut] v) (hl : l ≠ []) (v : ν) :
    Stops F like (Choices.each step l) v [cut] v := by
  cases l with
  | nil => exact absurd rfl hl
  | cons a l => exact (hcut a v).andThen _

/-- A row after the step, none of which has begun. -/
theorem Ceases.andThen_each {γ : Type} {first : σ → Except ε γ × σ} (h : Ceases F like may cut first v v')
    (hcut : ∀ a v, Stops F like (step a) v [cut] v) (l : List α) :
    Ceases F like may cut (Choices.andThen first fun _ => Choices.each step l) v v' := by
  cases l with
  | nil => exact h.andThen_done fun _ => []
  | cons a l =>
    obtain ⟨ks, hks, hstops⟩ := h.andThen fun _ v => each_cut (l := a :: l) hcut (List.cons_ne_nil a l) v
    exact .stops ks hks hstops

theorem Ceases.each {a : α} (h : Ceases F like may cut (step a) v v') (hcut : ∀ a v, Stops F like (step a) v [cut] v)
    (l : List α) : Ceases F like may cut (Choices.each step (a :: l)) v v' := by
  cases l with
  | nil => exact h.andThen_done fun b => [b]
  | cons a' l =>
    obtain ⟨ks, hks, hstops⟩ := h.andThen fun b v =>
      (each_cut (l := a' :: l) hcut (List.cons_ne_nil a' l) v).andThen fun bs => done (b :: bs)
    exact .stops ks hks hstops

end

end Choices
end PveMeta
