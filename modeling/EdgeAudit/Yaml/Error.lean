namespace EdgeAudit.Yaml

inductive YamlError
  | malformed
  | badNode
  | noSuchValue (reason : String)
  | noSuchWord
  | notATime
  | noDigits
  | notAText
  | outOfRange
  | endless
  | tooDeep
  deriving DecidableEq, Repr

end EdgeAudit.Yaml
