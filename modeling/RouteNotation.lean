import RouteNotation.Main
import RouteNotation.Proofs.BeanNames
import RouteNotation.Proofs.Blueprint.DocumentRoundTrip
import RouteNotation.Proofs.Blueprint.MissingIds
import RouteNotation.Proofs.Blueprint.NamePrefixes
import RouteNotation.Proofs.Blueprint.ReadTags
import RouteNotation.Proofs.Blueprint.SectionAttributes
import RouteNotation.Proofs.Dsl.AttributeKeys
import RouteNotation.Proofs.Dsl.DocumentRoundTrip
import RouteNotation.Proofs.Dsl.KeptValues
import RouteNotation.Proofs.Dsl.Occurrences
import RouteNotation.Proofs.Dsl.SectionLists
import RouteNotation.Proofs.FirstExpression
import RouteNotation.Proofs.GeneratedIds
import RouteNotation.Proofs.KeptAttributes
import RouteNotation.Proofs.Route.JoinedUri
import RouteNotation.Proofs.Route.NormalForm
import RouteNotation.Proofs.SeparateEntities
import RouteNotation.Proofs.Xml.CharacterData
import RouteNotation.Proofs.Xml.DepthLimit
import RouteNotation.Proofs.Xml.ErrorPositions
import RouteNotation.Proofs.Xml.WrapperTags
import RouteNotation.Proofs.XmlToYaml
import RouteNotation.Proofs.YamlToXml
