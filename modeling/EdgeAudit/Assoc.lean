namespace EdgeAudit

def assocSet {κ ν : Type} (same : κ → κ → Bool) (key : κ) (value : ν) :
    List (κ × ν) → List (κ × ν)
  | [] => [(key, value)]
  | (k, v) :: rest =>
    if same k key then (k, value) :: rest else (k, v) :: assocSet same key value rest

def assocGet? {κ ν : Type} (same : κ → κ → Bool) (key : κ) (pairs : List (κ × ν)) : Option ν :=
  (pairs.find? fun p => same p.1 key).map (·.2)

end EdgeAudit
