import Hashlock.Kind

/-!
# Published vectors

Encodings on which implementations are compared: a fulfillment, its condition, and the contents of
its fingerprint, with a message for which the fulfillment verifies. There is a vector for each
kind, and there are nested ones. Byte strings are in hexadecimal.
-/

namespace Hashlock.Samples

/-- A published vector. -/
structure TestVector where
  /-- The name by which the vector is looked up. -/
  name : String
  /-- What the vector shows. -/
  description : String
  /-- The kind of the fulfillment and of its condition. -/
  kind : Kind
  /-- A message for which the fulfillment verifies. -/
  message : String
  /-- The encoded fulfillment. -/
  fulfillment : String
  /-- The encoded condition. -/
  condition : String
  /-- What the fingerprint is the digest of. -/
  contents : String
  /-- The fingerprint. -/
  fingerprint : String
  /-- The cost of the condition. -/
  cost : UInt64
  /-- The kinds nested beneath the condition. -/
  subtypes : List Kind

namespace TestVector

/-- Empty preimage. -/
def preimageEmpty : TestVector where
  name := "preimage_empty"
  description := "Empty preimage"
  kind := .preimage
  message := ""
  fulfillment :=
    "a0028000"
  condition :=
    "a0258020e3b0c44298fc1c149afbf4c8996fb92427ae41e4649b934ca495991b7852b855810100"
  contents :=
    ""
  fingerprint :=
    "e3b0c44298fc1c149afbf4c8996fb92427ae41e4649b934ca495991b7852b855"
  cost := 0
  subtypes := []

/-- ASCII preimage. -/
def preimageShort : TestVector where
  name := "preimage_short"
  description := "ASCII preimage"
  kind := .preimage
  message := ""
  fulfillment :=
    "a02780257768656e207468697320626162792068697473203838206d696c65732070657220686f7572"
  condition :=
    "a025802088bd7157517422fb68928694d67d9e54ebdcc21cb899ee2fae850a83cbc59ce1810125"
  contents :=
    "7768656e207468697320626162792068697473203838206d696c65732070657220686f7572"
  fingerprint :=
    "88bd7157517422fb68928694d67d9e54ebdcc21cb899ee2fae850a83cbc59ce1"
  cost := 37
  subtypes := []

/-- Prefix with a preimage subfulfillment. -/
def prefixOverPreimage : TestVector where
  name := "prefix_over_preimage"
  description := "Prefix with a preimage subfulfillment"
  kind := .prefixed
  message := ""
  fulfillment :=
    "a145800b4f726465722d3132333435810203e8a232a030802e526f6164733f2057686572652077652772652067" ++
    "6f696e672c20776520646f6e2774206e65656420726f6164732e"
  condition :=
    "a12a80202ab57f618bd031cfe600aa60ef72a781f95dde516865d510f0512d41fe26d7788102082182020780"
  contents :=
    "303a800b4f726465722d3132333435810203e8a227a0258020fb6f0454dafbacec10fd7b2fac95712ef8c1637f" ++
    "1935994768f1d8a6c21b987e81012e"
  fingerprint :=
    "2ab57f618bd031cfe600aa60ef72a781f95dde516865d510f0512d41fe26d778"
  cost := 2081
  subtypes := [.preimage]

/-- Ed25519 signature over "hello". -/
def ed25519Hello : TestVector where
  name := "ed25519_hello"
  description := "Ed25519 signature over \"hello\""
  kind := .ed25519
  message := "68656c6c6f"
  fulfillment :=
    "a46480202152f8d19b791d24453242e15f2eab6cb7cffa7b6a5ed30097960e069881db128140fa10ea646d7ee8" ++
    "0994bdddd03942479b61a9d54962cffe3e629537266b8adc46b5a60b204f1798bf32398bc2d4ef8d791a4e4ae7" ++
    "c39eb43e83563ce67d39e405"
  condition :=
    "a4278020068fe1235667471ed1c8085e71318a17b8f628ce03756f68322cee52d28cc3478103020000"
  contents :=
    "302280202152f8d19b791d24453242e15f2eab6cb7cffa7b6a5ed30097960e069881db12"
  fingerprint :=
    "068fe1235667471ed1c8085e71318a17b8f628ce03756f68322cee52d28cc347"
  cost := 131072
  subtypes := []

/-- Prefix "Ying " over an Ed25519 signature of "Ying Yang". -/
def prefixYingYang : TestVector where
  name := "prefix_ying_yang"
  description := "Prefix \"Ying \" over an Ed25519 signature of \"Ying Yang\""
  kind := .prefixed
  message := "59616e67"
  fulfillment :=
    "a172800559696e6720810164a266a4648020ea4a6c63e29c520abef5507b132ec5f9954776aebebe7b92421eea" ++
    "691446d22c8140c59b3aea9f6bb01b5c0a40d57f0371d5a76711f7eea35b00227256820cb8165dafa25bb61804" ++
    "1548006ca2af4d42a18274c62748d22acd5d0fc4110ec280db0e"
  condition :=
    "a12b80200c492ea0e53b27685c61b5b0da3e2d378667f34ed26928a8774d4046ecc6c7c6810302046982020308"
  contents :=
    "3035800559696e6720810164a229a4278020f844ec4c034aba63bf86c33529e30f77afb698c6ad7f943c974b06" ++
    "e33bb8d8d58103020000"
  fingerprint :=
    "0c492ea0e53b27685c61b5b0da3e2d378667f34ed26928a8774d4046ecc6c7c6"
  cost := 132201
  subtypes := [.ed25519]

/-- RSA-PSS 2048-bit signature over "hello rsa". -/
def rsa2048 : TestVector where
  name := "rsa_2048"
  description := "RSA-PSS 2048-bit signature over \"hello rsa\""
  kind := .rsa
  message := "68656c6c6f20727361"
  fulfillment :=
    "a382020880820100f2a630f0ecd834adad89036b2684d4c50c43258c593e02fc8af79f9ecdf4a20ee48c31b479" ++
    "ff9d0d15e139a2b7a7d12cf1f6977ff61ef660974ea397eb95844b8aa9a72199f8cd495fbb6a45b392c09ce962" ++
    "ce3cd0404dbda384e0d566111eb63e76711338282961484180eb8bbffc50fa28dd519357ab76f596df26eb3edc" ++
    "8bd47c38d01c89fc78d84a61d6e3e831f5986f3179bcc3bd2271c32ade7c965e3a13b23d88fb11b14f3bf06f37" ++
    "5d283d535c3eacc437abddb3496712a99740c081ef61ceb7b8e01b1def2ab32d0263fe124d26eff3ce13ef1c19" ++
    "da8e9a6c062c9c8fbb6ee4ad3d2f15dfe087d6a0e4966006543788f21ecd2e88ddb3908d6204d381820100b15d" ++
    "030d546acad2e229edf9420eb1b0bfa58c91b36ae7e5de865590254ae7ba038923121247e5fa863ca3ea5a02f9" ++
    "1d37cc2a7c6de2e2b813f95141c907cc9d2defb7d29944e2102f640723e7d6f521bcb5475bd5cee35f07ece2c0" ++
    "37f917ce55bbaf7f8e091d361308cfc61b2b2f50603511a86b62f7260d4320aba23bfa445757977c4f12dad917" ++
    "4be2072a571d4d0da62e8e5768caafc18cb8666f3bc017cadfb29db1dee382b29a4f70df35ea76e1afb9867c53" ++
    "194464a4225f438968df9c7404d09703318a7316d5d9db1ce3fe91746b151cd2b659f16352c38d7dd8150e4c12" ++
    "dc7c53f51a9aff4e1c59bbdb3164b5739f447b9069aa0388167cc5af54"
  condition :=
    "a3278020f8efdd3991e362d2b97366f1f0633b92a012c5bf755fe74329b4b6c444d6fe4c8103010000"
  contents :=
    "3082010480820100f2a630f0ecd834adad89036b2684d4c50c43258c593e02fc8af79f9ecdf4a20ee48c31b479" ++
    "ff9d0d15e139a2b7a7d12cf1f6977ff61ef660974ea397eb95844b8aa9a72199f8cd495fbb6a45b392c09ce962" ++
    "ce3cd0404dbda384e0d566111eb63e76711338282961484180eb8bbffc50fa28dd519357ab76f596df26eb3edc" ++
    "8bd47c38d01c89fc78d84a61d6e3e831f5986f3179bcc3bd2271c32ade7c965e3a13b23d88fb11b14f3bf06f37" ++
    "5d283d535c3eacc437abddb3496712a99740c081ef61ceb7b8e01b1def2ab32d0263fe124d26eff3ce13ef1c19" ++
    "da8e9a6c062c9c8fbb6ee4ad3d2f15dfe087d6a0e4966006543788f21ecd2e88ddb3908d6204d3"
  fingerprint :=
    "f8efdd3991e362d2b97366f1f0633b92a012c5bf755fe74329b4b6c444d6fe4c"
  cost := 65536
  subtypes := []

/-- 2-of-3 threshold with one bare RSA subcondition. -/
def thresholdTwoOfThree : TestVector where
  name := "threshold_two_of_three"
  description := "2-of-3 threshold with one bare RSA subcondition"
  kind := .threshold
  message := "59616e67"
  fulfillment :=
    "a281d4a081a6a030802e526f6164733f20576865726520776527726520676f696e672c20776520646f6e277420" ++
    "6e65656420726f6164732ea172800559696e6720810164a266a4648020ea4a6c63e29c520abef5507b132ec5f9" ++
    "954776aebebe7b92421eea691446d22c8140c59b3aea9f6bb01b5c0a40d57f0371d5a76711f7eea35b00227256" ++
    "820cb8165dafa25bb618041548006ca2af4d42a18274c62748d22acd5d0fc4110ec280db0ea129a3278020f8ef" ++
    "dd3991e362d2b97366f1f0633b92a012c5bf755fe74329b4b6c444d6fe4c8103010000"
  condition :=
    "a22b8020b02e899f8c0d3952a52b0bd98de281c14f88f92487ca51416eadb48abdc66c178103031069820203d8"
  contents :=
    "308182800102a17da0258020fb6f0454dafbacec10fd7b2fac95712ef8c1637f1935994768f1d8a6c21b987e81" ++
    "012ea12b80200c492ea0e53b27685c61b5b0da3e2d378667f34ed26928a8774d4046ecc6c7c681030204698202" ++
    "0308a3278020f8efdd3991e362d2b97366f1f0633b92a012c5bf755fe74329b4b6c444d6fe4c8103010000"
  fingerprint :=
    "b02e899f8c0d3952a52b0bd98de281c14f88f92487ca51416eadb48abdc66c17"
  cost := 200809
  subtypes := [.preimage, .prefixed, .rsa, .ed25519]

/-- Prefix over a 1-of-2 threshold with an Ed25519 branch. -/
def prefixOverThreshold : TestVector where
  name := "prefix_over_threshold"
  description := "Prefix over a 1-of-2 threshold with an Ed25519 branch"
  kind := .prefixed
  message := "696e6e6572"
  fulfillment :=
    "a181a280066f757465723a810140a28194a28191a066a4648020fd1724385aa0c75b64fb78cd602fa1d991fdeb" ++
    "f76b13c58ed702eac835e9f618814003ac95edabccc3f20d870dad430658832e84acb6806fee093959c8940774" ++
    "42a303984a95be4340dd550cd07a0fcf7da23826bc5b17ac7f7d960833ab26735c09a127a025802088bd715751" ++
    "7422fb68928694d67d9e54ebdcc21cb899ee2fae850a83cbc59ce1810125"
  condition :=
    "a12b8020413749c79114f73525f20c9d6da0671d7b8b01ad3250b960cd4f863920f0a5e68103020c46820203a8"
  contents :=
    "303a80066f757465723a810140a22da22b802099fedd664138c0db052f1122147b1d7d34f63df73f7b4527e838" ++
    "2fa80857f218810302080082020388"
  fingerprint :=
    "413749c79114f73525f20c9d6da0671d7b8b01ad3250b960cd4f863920f0a5e6"
  cost := 134214
  subtypes := [.preimage, .threshold, .ed25519]

/-- All vectors. -/
def all : List TestVector := [
  preimageEmpty,
  preimageShort,
  prefixOverPreimage,
  ed25519Hello,
  prefixYingYang,
  rsa2048,
  thresholdTwoOfThree,
  prefixOverThreshold]

/-- The vector with a given name. -/
def find? (name : String) : Option TestVector := all.find? (·.name == name)

end TestVector

end Hashlock.Samples
